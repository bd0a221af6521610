import InterfaceFile.Proofs.Reader.AcceptedStatement
import InterfaceFile.Proofs.RoundTrip.ReadTree

/-!
# Files that the reader takes

Whatever file the reader takes, its statements are as the reader takes statements, only scopes have
bodies, and they are not nested too deep. A statement of such a file that fits where it is printed has
a printable settled form.
-/

namespace InterfaceFile

/-! ## Statements with their bodies -/

/-- A node that the reader takes. An empty line has no comments. -/
def Node.Taken (n : Node) : Prop :=
  (∀ c ∈ n.comments, c.Printable) ∧ (n.decl = .blank ∧ n.comments = [] ∨ n.decl.Taken)

namespace Node

theorem isScope_settled (n : Node) : n.settled.isScope = n.isScope := by
  obtain ⟨decl, comments, loc⟩ := n
  cases decl <;> rfl

theorem Taken.printable {n : Node} (h : n.Taken) (fits : n.decl.Fits) : n.settled.Printable {} := by
  obtain ⟨noted, ⟨blank, silent⟩ | taken⟩ := h
  · refine ⟨?_, noted, fun _ => silent⟩
    rw [settled, blank]
    trivial
  · refine ⟨taken.printable fits, noted, fun blank => ?_⟩
    obtain ⟨decl, comments, loc⟩ := n
    cases decl with
    | blank => exact taken.elim
    | _ => cases blank

end Node

namespace Outline

mutual

/-- A statement inside `depth` scopes, whose nodes are as `P` says. Only scopes have bodies, and they are not
    nested too deep. -/
def Nests (P : Node → Prop) (depth : Nat) : Outline → Prop
  | mk node body => P node ∧
      if node.isScope then (depth < nestingLimit ∨ body = []) ∧ NestsAll P (depth + 1) body
      else body = []

/-- Such statements one after the other. -/
def NestsAll (P : Node → Prop) (depth : Nat) : List Outline → Prop
  | [] => True
  | o :: rest => o.Nests P depth ∧ NestsAll P depth rest

end

/-- A statement that the reader takes inside `depth` scopes. -/
abbrev Taken (depth : Nat) (o : Outline) : Prop :=
  o.Nests Node.Taken depth

variable {P : Node → Prop} {node : Node} {depth : Nat} {body : List Outline}

theorem nestsAll_of_forall (h : ∀ o ∈ body, o.Nests P depth) : NestsAll P depth body := by
  induction body with
  | nil => trivial
  | cons first rest ih =>
    exact ⟨h first List.mem_cons_self, ih fun o member => h o (List.mem_cons_of_mem _ member)⟩

theorem nests_leaf (holds : P node) : (mk node []).Nests P depth := by
  refine ⟨holds, ?_⟩
  split
  · exact ⟨.inr rfl, trivial⟩
  · rfl

theorem nests_scope (holds : P node) (opens : node.isScope = true) (shallow : depth < nestingLimit)
    (inside : ∀ o ∈ body, o.Nests P (depth + 1)) : (mk node body).Nests P depth := by
  refine ⟨holds, ?_⟩
  rw [if_pos opens]
  exact ⟨.inl shallow, nestsAll_of_forall inside⟩

mutual

/-- A statement that the reader takes has a printable settled form if it fits. -/
theorem Taken.printable : ∀ {o : Outline} {depth : Nat}, o.Taken depth → o.fits = true →
    o.settled.printable {} depth = true
  | mk node body, depth, ⟨taken, inside⟩, fit => by
    rw [fits, Bool.and_eq_true, decide_eq_true_eq] at fit
    rw [settled, printable, decide_eq_true (taken.printable fit.1), node.isScope_settled]
    cases scope : node.isScope with
    | false =>
      rw [scope, if_neg (by decide)] at inside
      rw [inside]
      rfl
    | true =>
      rw [scope, if_pos rfl] at inside
      rw [if_pos rfl, NestsAll.printable inside.2 fit.2]
      rcases inside.1 with shallow | rfl
      · simp [shallow]
      · simp [settledAll]

theorem NestsAll.printable : ∀ {os : List Outline} {depth : Nat}, NestsAll Node.Taken depth os →
    fitsAll os = true → printableAll {} depth (settledAll os) = true
  | [], _, _, _ => rfl
  | o :: os, depth, h, fit => by
    rw [fitsAll, Bool.and_eq_true] at fit
    rw [settledAll, printableAll, Taken.printable h.1 fit.1, NestsAll.printable h.2 fit.2]
    rfl

end

end Outline

/-! ## Files that are being read -/

/-- The open scopes can be printed, and so can the statements before each of them. -/
def ScopesTaken : List OpenScope → Prop
  | [] => True
  | s :: outer => (s.scope.Printable ∧ ∀ c ∈ s.comments, c.Printable) ∧
      (∀ o ∈ s.earlier, o.Taken outer.length) ∧ outer.length < nestingLimit ∧ ScopesTaken outer

/-- What holds of a file while it is being read. -/
structure OpenFile.Taken (f : OpenFile) : Prop where
  remarks : ∀ m ∈ f.remarks, m.comment.Printable
  sigs : ∀ s ∈ f.sigs, ∀ op ∈ s.1.ops, op.Printable
  statements : ∀ o ∈ f.statements, o.Taken f.scopes.length
  scopes : ScopesTaken f.scopes

namespace OpenFile.Taken

variable {f : OpenFile}

theorem await (h : f.Taken) {remarks : List Remark} (noted : ∀ m ∈ remarks, m.comment.Printable) :
    (f.await remarks).Taken where
  remarks := by
    intro m member
    rcases List.mem_append.1 member with new | before
    · exact noted m (List.mem_reverse.1 new)
    · exact h.remarks m before
  sigs := h.sigs
  statements := h.statements
  scopes := h.scopes

theorem waiting (h : f.Taken) : ∀ c ∈ f.waiting, c.Printable := by
  intro c member
  obtain ⟨m, inside, rfl⟩ := List.mem_map.1 member
  exact h.remarks m (List.mem_reverse.1 inside)

theorem add (h : f.Taken) {s : Outline} (taken : s.Taken f.scopes.length) : (f.add s).Taken where
  remarks := nofun
  sigs := h.sigs
  statements := List.forall_mem_cons.2 ⟨taken, h.statements⟩
  scopes := h.scopes

end OpenFile.Taken

namespace Reader

variable {x : List Char} {f : OpenFile}

/-! ## What each line keeps -/

theorem forall_mem_toList {r : Option Remark} (h : ∀ m ∈ r, m.comment.Printable) :
    ∀ m ∈ r.toList, m.comment.Printable :=
  fun m member => h m (Option.mem_toList.1 member)

theorem gives_closeFile (h : f.Taken) : Gives (closeFile f) x fun t _ =>
    TurnOf OpenFile.Taken (fun body => ∀ o ∈ body, o.Taken 0) t := by
  refine gives_next fun _ y => ?_
  cases scopes : f.scopes with
  | cons s outer => exact gives_fail _ _
  | nil =>
    refine gives_pure fun o member => ?_
    have taken := h.statements o (List.mem_reverse.1 member)
    rwa [scopes] at taken

theorem gives_closeScope (h : f.Taken) (start : Position) : Gives (closeScope f start) x fun t _ =>
    TurnOf OpenFile.Taken (fun body => ∀ o ∈ body, o.Taken 0) t := by
  refine gives_next fun _ y => gives_next fun stop y => ?_
  cases scopes : f.scopes with
  | nil => exact gives_fail _ _
  | cons s outer =>
    refine gives_finishLine.bind fun remark z noted => gives_next fun loc z => gives_pure ?_
    have taken := h.scopes
    have statements := h.statements
    rw [scopes] at taken statements
    obtain ⟨⟨printable, comments⟩, earlier, shallow, around⟩ := taken
    have closed : (Outline.mk
        { decl := .scope s.scope
          comments := s.comments ++ remark.toList.map Remark.comment
          loc := some loc } f.statements.reverse).Taken outer.length := by
      refine Outline.nests_scope ⟨fun c member => ?_, .inr printable⟩ rfl shallow fun o member => ?_
      · rcases List.mem_append.1 member with before | new
        · exact comments c before
        · obtain ⟨m, inside, rfl⟩ := List.mem_map.1 new
          exact forall_mem_toList noted m inside
      · exact statements o (List.mem_reverse.1 member)
    exact ⟨nofun, nofun, List.forall_mem_cons.2 ⟨closed, earlier⟩, around⟩

theorem gives_openScope (h : f.Taken) (start : Position) {s : Scope} (printable : s.Printable) :
    Gives (openScope f start s) x fun f' _ => f'.Taken := by
  refine gives_next fun _ y => gives_next fun _ y => gives_branch (fun _ => ?_) fun _ => ?_
  · refine gives_next fun _ y => gives_next fun _ y => gives_next fun stop y => ?_
    refine gives_finishLine.bind fun remark z noted => gives_next fun loc z => gives_pure ?_
    have comments := (h.await (forall_mem_toList noted)).waiting
    exact h.add (Outline.nests_leaf ⟨comments, .inr printable⟩)
  · refine gives_next fun stop y => gives_finishLine.bind fun remark z noted => ?_
    refine .ite (fun _ => gives_fail _ _) fun shallow => gives_pure ?_
    have comments := (h.await (forall_mem_toList noted)).waiting
    exact ⟨nofun, nofun, nofun, ⟨printable, comments⟩, h.statements, Nat.lt_of_not_le shallow, h.scopes⟩

theorem gives_closeLeaf (h : f.Taken) (start : Position) {d : Declaration} {remarks : List Remark}
    (taken : d.Taken) (noted : ∀ m ∈ remarks, m.comment.Printable) :
    Gives (closeLeaf f start d remarks) x fun f' _ => f'.Taken := by
  refine gives_next fun stop y => gives_finishLine.bind fun remark z last => gives_next fun loc z => ?_
  have comments : ∀ c ∈ (f.await (remarks ++ remark.toList)).waiting, c.Printable := by
    refine (h.await fun m member => ?_).waiting
    exact (List.mem_append.1 member).elim (noted m) (forall_mem_toList last m)
  have sigs : ∀ s ∈ f.sigs.reverse.map Prod.fst, ∀ op ∈ s.ops, op.Printable := by
    intro s member
    obtain ⟨pair, inside, rfl⟩ := List.mem_map.1 member
    exact h.sigs pair (List.mem_reverse.1 inside)
  cases signed : d.withSigs? (f.sigs.reverse.map Prod.fst) with
  | some d' =>
    refine gives_pure ?_
    have free : ({ f with sigs := [] } : OpenFile).Taken := ⟨h.remarks, nofun, h.statements, h.scopes⟩
    exact free.add (Outline.nests_leaf ⟨comments, .inr (taken.withSigs sigs signed)⟩)
  | none =>
    refine gives_next fun _ _ => gives_pure ?_
    exact h.add (Outline.nests_leaf ⟨comments, .inr taken⟩)

theorem gives_closeStatement (h : f.Taken) (start : Position) {s : Statement} (taken : s.Taken) :
    Gives (closeStatement f start s) x fun f' _ => f'.Taken := by
  cases s with
  | leaf d remarks => exact gives_closeLeaf h start taken.1 taken.2
  | header s => exact gives_openScope h start taken
  | sig s remarks =>
    refine gives_next fun stop y => gives_finishLine.bind fun remark z last => gives_pure ?_
    have awaited : (f.await (remarks ++ remark.toList)).Taken := h.await fun m member =>
      (List.mem_append.1 member).elim (taken.2 m) (forall_mem_toList last m)
    exact ⟨awaited.remarks, List.forall_mem_cons.2 ⟨taken.1, h.sigs⟩, h.statements, h.scopes⟩

/-- One more line. -/
theorem gives_fileStep (h : f.Taken) : Gives (fileStep f) x fun t _ =>
    TurnOf OpenFile.Taken (fun body => ∀ o ∈ body, o.Taken 0) t := by
  refine gives_next fun _ y => gives_next fun start y => gives_branch (fun y => ?_) fun y => ?_
  · refine gives_next fun loc y => gives_pure ⟨h.remarks, h.sigs, ?_, h.scopes⟩
    exact List.forall_mem_cons.2 ⟨Outline.nests_leaf ⟨nofun, .inl ⟨rfl, rfl⟩⟩, h.statements⟩
  refine gives_remark?.bind fun remark z noted => ?_
  cases remark with
  | some remark =>
    refine gives_next fun _ _ => gives_pure (h.await fun m member => ?_)
    rw [List.mem_singleton.1 member]
    exact noted.1 remark rfl
  | none =>
    refine gives_branch (fun _ => gives_closeFile h) fun y => ?_
    refine (gives_eatKeyword_no (by decide)).bind fun found z other => ?_
    cases found with
    | true => exact gives_closeScope h start
    | false =>
      obtain ⟨rfl, inside⟩ := other rfl
      refine (gives_statement inside).bind fun s w taken => ?_
      exact (gives_closeStatement h start taken).bind fun f' _ taken' => gives_pure taken'

/-! ## Whole files -/

theorem dropCopies_suffix (word cs : List Char) : Text.dropCopies word cs <:+ cs := by
  fun_induction Text.dropCopies word cs with
  | case1 cs copy ih => exact ih.trans (List.drop_suffix _ _)
  | case2 cs other => exact List.suffix_rfl

theorem gives_strictness? : Gives strictness? x fun r _ =>
    ∀ level ∈ r, '\n' ∉ level.toList ∧ trimmed level = level := by
  refine gives_branch (fun _ => ?_) fun _ => gives_pure nofun
  refine gives_remark?_line.bind fun remark y noted => ?_
  cases remark with
  | none => exact gives_pure nofun
  | some remark =>
    obtain ⟨single, -⟩ := noted.1 remark rfl
    have tidy : ∀ level ∈ some (String.ofList (Text.trim (Text.dropCopies "typed:".toList
        remark.comment.text.toList))), '\n' ∉ level.toList ∧ trimmed level = level := by
      rintro _ ⟨⟩
      rw [trimmed, String.toList_ofList, (Text.trimmed_trim _).trim_eq]
      refine ⟨fun member => single ?_, rfl⟩
      have kept := (List.dropWhile_sublist _).subset (List.mem_reverse.1 member)
      have begun := (List.dropWhile_sublist _).subset (List.mem_reverse.1 kept)
      exact (dropCopies_suffix _ _).subset begun
    refine gives_next fun _ y => gives_branch (fun _ => ?_) fun _ => gives_pure tidy
    exact gives_next fun _ _ => gives_next fun _ _ => gives_pure tidy

/-- What a file that is read consists of. -/
theorem gives_file : Gives file x fun t _ => ∃ level body, t = .ofOutlines level body ∧
    (∀ l ∈ level, '\n' ∉ l.toList ∧ trimmed l = l) ∧ ∀ o ∈ body, o.Taken 0 := by
  refine gives_strictness?.bind fun level y tidy => ?_
  have start : ({} : OpenFile).Taken := ⟨nofun, nofun, nofun, trivial⟩
  refine (gives_loop (fun f x h => gives_fileStep h) start).bind fun body z taken => ?_
  exact gives_pure ⟨level, body, rfl, tidy, taken⟩

end Reader

end InterfaceFile
