import InterfaceFile.Proofs.Bytes.ScriptedFile
import InterfaceFile.Proofs.Bytes.Trails
import InterfaceFile.Proofs.Spelling.RawLoops

/-!
# Reading bodies inside bodies

One loop reads a whole file and keeps the open scopes in a list. Said as a recursion, the body of a scope
is read by a run of its own that begins behind the header and stops behind the `end`, and the body around it
goes on from there. `BodyRun` is that recursion, without a bound. It has one outcome wherever it is
started, in no more turns than there are characters and one, and it is the outcome of the loop.
-/

namespace InterfaceFile

/-- How many scopes are open. -/
def OpenFile.depth (f : OpenFile) : Nat :=
  f.scopes.length

namespace Reader

variable {f g : OpenFile} {c d : Cursor} {m n : Nat} {x : List Char}

/-! ## The open scopes after a turn -/

/-- The scopes that are open before and after a turn: the same ones, one more, or all but the innermost. -/
def ScopesStep (before after : List OpenScope) : Prop :=
  after = before ∨ (∃ s, after = s :: before) ∨ ∃ s, before = s :: after

theorem gives_openScope_scopes (start : Position) (s : Scope) :
    Gives (openScope f start s) x fun g _ => ScopesStep f.scopes g.scopes := by
  refine gives_next fun _ _ => gives_next fun _ _ => gives_branch (fun _ => ?_) fun _ => ?_
  · exact gives_next fun _ _ => gives_next fun _ _ => gives_next fun _ _ => gives_next fun _ _ =>
      gives_next fun _ _ => gives_pure (.inl rfl)
  · exact gives_next fun _ _ => gives_next fun _ _ => .ite (fun _ => gives_fail _ _) fun _ =>
      gives_pure (.inr (.inl ⟨_, rfl⟩))

theorem gives_closeStatement_scopes (start : Position) (s : Statement) :
    Gives (closeStatement f start s) x fun g _ => ScopesStep f.scopes g.scopes := by
  cases s with
  | leaf decl remarks =>
    refine gives_next fun _ _ => gives_next fun _ _ => gives_next fun _ _ => ?_
    cases decl.withSigs? (f.sigs.reverse.map Prod.fst) with
    | some signed => exact gives_pure (.inl rfl)
    | none => exact gives_next fun _ _ => gives_pure (.inl rfl)
  | sig sig remarks => exact gives_next fun _ _ => gives_next fun _ _ => gives_pure (.inl rfl)
  | header scope => exact gives_openScope_scopes start scope

theorem gives_closeScope_scopes (start : Position) : Gives (closeScope f start) x fun t _ =>
    TurnOf (fun g => ScopesStep f.scopes g.scopes) (fun _ => f.scopes = []) t := by
  refine gives_next fun _ _ => gives_next fun _ _ => ?_
  cases scopes : f.scopes with
  | nil => exact gives_fail _ _
  | cons s outer =>
    exact gives_next fun _ _ => gives_next fun _ _ => gives_pure (.inr (.inr ⟨s, rfl⟩))

theorem gives_closeFile_scopes : Gives (closeFile f) x fun t _ =>
    TurnOf (fun g => ScopesStep f.scopes g.scopes) (fun _ => f.scopes = []) t := by
  refine gives_next fun _ _ => ?_
  cases scopes : f.scopes with
  | nil => exact gives_pure rfl
  | cons s outer => exact gives_fail _ _

/-- A turn opens or closes one scope at most, and the file ends where none is open. -/
theorem gives_fileStep_scopes : Gives (fileStep f) x fun t _ =>
    TurnOf (fun g => ScopesStep f.scopes g.scopes) (fun _ => f.scopes = []) t := by
  refine gives_next fun _ _ => gives_next fun start _ => gives_branch (fun _ => ?_) fun _ => ?_
  · exact gives_next fun _ _ => gives_pure (.inl rfl)
  refine gives_next fun remark _ => ?_
  cases remark with
  | some remark => exact gives_next fun _ _ => gives_pure (.inl rfl)
  | none =>
    refine gives_branch (fun _ => gives_closeFile_scopes) fun _ => gives_branch
      (fun _ => gives_closeScope_scopes start) fun _ => gives_next fun s _ => ?_
    exact (gives_closeStatement_scopes start s).bind fun _ _ kept => gives_pure kept

theorem shorter_of_fileStep (turn : fileStep f c = .ok (.again g, d)) :
    d.rest.length < c.rest.length :=
  (moves_fileStep f c _ d turn).2 trivial

/-! ## Runs -/

/-- What reading a body comes to. -/
inductive BodyOutcome where
  /-- The `end` has been read; the file is the one around the body, with its scope. -/
  | closed (f : OpenFile) (d : Cursor)
  /-- The text ends, and the file with it. -/
  | finished (statements : List Outline) (d : Cursor)
  | failed (e : ReadError)

namespace BodyOutcome

/-- How many scopes were open before: one more than behind the body, or none where the file ends. -/
def Leaves (before : Nat) : BodyOutcome → Prop
  | closed g _ => before = g.depth + 1
  | finished _ _ => before = 0
  | failed _ => True

/-- A run from `c` on has no more turns than it has taken characters. The last turn of a file, and one
    that fails, may take none. -/
def Takes (c : Cursor) (turns : Nat) : BodyOutcome → Prop
  | closed _ d => turns + d.rest.length ≤ c.rest.length
  | finished _ _ => turns ≤ c.rest.length + 1
  | failed _ => turns ≤ c.rest.length + 1

/-- Goes on to the end of the file. -/
def toEnd : BodyOutcome → Except ReadError (List Outline × Cursor)
  | closed g d => loop fileStep moves_fileStep g d
  | finished statements d => .ok (statements, d)
  | failed e => .error e

end BodyOutcome

/-- Reading the innermost open body of a file from `c` on, in `n` turns together with those of the
    bodies inside of it. -/
inductive BodyRun : OpenFile → Cursor → Nat → BodyOutcome → Prop
  | failed {f : OpenFile} {c : Cursor} {e : ReadError} (turn : fileStep f c = .error e) :
      BodyRun f c 1 (.failed e)
  | finished {f : OpenFile} {c d : Cursor} {statements : List Outline}
      (turn : fileStep f c = .ok (.done statements, d)) : BodyRun f c 1 (.finished statements d)
  | closed {f g : OpenFile} {c d : Cursor}
      (turn : fileStep f c = .ok (.again g, d)) (closes : f.depth = g.depth + 1) :
      BodyRun f c 1 (.closed g d)
  | next {f g : OpenFile} {c d : Cursor} {n : Nat} {o : BodyOutcome}
      (turn : fileStep f c = .ok (.again g, d)) (stays : g.depth = f.depth)
      (rest : BodyRun g d n o) : BodyRun f c (n + 1) o
  /-- A scope whose body is read to its `end`. -/
  | scope {f g h : OpenFile} {c d e : Cursor} {m n : Nat} {o : BodyOutcome}
      (turn : fileStep f c = .ok (.again g, d)) (opens : g.depth = f.depth + 1)
      (inside : BodyRun g d m (.closed h e)) (rest : BodyRun h e n o) : BodyRun f c (m + n + 1) o
  /-- A scope whose body cannot be read. -/
  | broken {f g : OpenFile} {c d : Cursor} {n : Nat} {e : ReadError}
      (turn : fileStep f c = .ok (.again g, d)) (opens : g.depth = f.depth + 1)
      (inside : BodyRun g d n (.failed e)) : BodyRun f c (n + 1) (.failed e)

namespace BodyRun

variable {o p : BodyOutcome}

/-- The run of a body ends when its scope is closed, or where no scope is open. -/
theorem leaves (h : BodyRun f c n o) : o.Leaves f.depth := by
  induction h with
  | failed => trivial
  | @finished f c d statements turn =>
    exact List.length_eq_zero_iff.2 (gives_fileStep_scopes c _ d rfl turn)
  | closed turn closes => exact closes
  | next turn stays rest ih => rwa [stays] at ih
  | scope turn opens inside rest ih ih' => rwa [← Nat.succ.inj (opens.symm.trans ih)] at ih'
  | broken => trivial

theorem takes (h : BodyRun f c n o) : o.Takes c n := by
  induction h with
  | failed => exact Nat.le_add_left 1 _
  | finished => exact Nat.le_add_left 1 _
  | closed turn =>
    have less := shorter_of_fileStep turn
    simp only [BodyOutcome.Takes]
    omega
  | @next _ _ _ _ _ o turn _ _ ih =>
    have less := shorter_of_fileStep turn
    cases o <;> simp only [BodyOutcome.Takes] at ih ⊢ <;> omega
  | @scope _ _ _ _ _ _ _ _ o turn _ _ _ ih ih' =>
    have less := shorter_of_fileStep turn
    cases o <;> simp only [BodyOutcome.Takes] at ih ih' ⊢ <;> omega
  | broken turn _ _ ih =>
    have less := shorter_of_fileStep turn
    simp only [BodyOutcome.Takes] at ih ⊢
    omega

/-- The loop over a file does what the run does, and goes on behind a body that is closed. -/
theorem loop_eq (h : BodyRun f c n o) : loop fileStep moves_fileStep f c = o.toEnd := by
  change loopFrom fileStep moves_fileStep f c = _
  induction h with
  | failed turn => rw [loopFrom_eq, turn]; rfl
  | finished turn => rw [loopFrom_eq, turn]; rfl
  | closed turn => rw [loopFrom_eq, turn]; rfl
  | next turn stays rest ih => rw [loopFrom_eq, turn]; exact ih
  | scope turn opens inside rest ih ih' => rw [loopFrom_eq, turn]; exact ih.trans ih'
  | broken turn opens inside ih => rw [loopFrom_eq, turn]; exact ih

/-- A body can be read, whatever is open and wherever it goes on. -/
theorem exists_run (f : OpenFile) (c : Cursor) : ∃ n o, BodyRun f c n o := by
  induction size : c.rest.length using Nat.strongRecOn generalizing f c with
  | ind size ih =>
    cases turn : fileStep f c with
    | error e => exact ⟨1, _, .failed turn⟩
    | ok result =>
      obtain ⟨t, d⟩ := result
      have scopes := gives_fileStep_scopes c t d rfl turn
      cases t with
      | done statements => exact ⟨1, _, .finished turn⟩
      | again g =>
        have less := shorter_of_fileStep turn
        obtain ⟨m, o, run⟩ := ih d.rest.length (by omega) g d rfl
        rcases scopes with stays | ⟨s, opens⟩ | ⟨s, closes⟩
        · exact ⟨m + 1, o, .next turn (congrArg List.length stays) run⟩
        · have opens : g.depth = f.depth + 1 := congrArg List.length opens
          cases o with
          | closed h e =>
            have behind : m + e.rest.length ≤ d.rest.length := run.takes
            obtain ⟨n, o, rest⟩ := ih e.rest.length (by omega) h e rfl
            exact ⟨m + n + 1, o, .scope turn opens run rest⟩
          | finished statements e => exact absurd (opens.symm.trans run.leaves) (Nat.succ_ne_zero _)
          | failed e => exact ⟨m + 1, _, .broken turn opens run⟩
        · exact ⟨1, _, .closed turn (congrArg List.length closes)⟩

/-- What a run is, by its first turn and by whether that one opens a scope or closes one. -/
theorem first (h : BodyRun f c n o) : match fileStep f c with
    | .error e => n = 1 ∧ o = .failed e
    | .ok (.done statements, d) => n = 1 ∧ o = .finished statements d
    | .ok (.again g, d) =>
      f.depth = g.depth + 1 ∧ n = 1 ∧ o = .closed g d ∨
      g.depth = f.depth ∧ (∃ m, n = m + 1 ∧ BodyRun g d m o) ∨
      g.depth = f.depth + 1 ∧
        ((∃ m h e k, n = m + k + 1 ∧ BodyRun g d m (.closed h e) ∧ BodyRun h e k o) ∨
          ∃ m e, n = m + 1 ∧ o = .failed e ∧ BodyRun g d m (.failed e)) := by
  cases h with
  | failed turn => rw [turn]; exact ⟨rfl, rfl⟩
  | finished turn => rw [turn]; exact ⟨rfl, rfl⟩
  | closed turn closes => rw [turn]; exact .inl ⟨closes, rfl, rfl⟩
  | next turn stays rest => rw [turn]; exact .inr (.inl ⟨stays, _, rfl, rest⟩)
  | scope turn opens inside rest =>
    rw [turn]; exact .inr (.inr ⟨opens, .inl ⟨_, _, _, _, rfl, inside, rest⟩⟩)
  | broken turn opens inside =>
    rw [turn]; exact .inr (.inr ⟨opens, .inr ⟨_, _, rfl, rfl, inside⟩⟩)

/-- The first turn is the same in both runs, and so it is the same kind of run. -/
theorem unique (h : BodyRun f c m o) (k : BodyRun f c n p) : m = n ∧ o = p := by
  induction h generalizing n p with
  | failed turn =>
    have other := k.first
    rw [turn] at other
    exact ⟨other.1.symm, other.2.symm⟩
  | finished turn =>
    have other := k.first
    rw [turn] at other
    exact ⟨other.1.symm, other.2.symm⟩
  | closed turn closes =>
    have other := k.first
    rw [turn] at other
    rcases other with ⟨-, rfl, rfl⟩ | ⟨stays, -⟩ | ⟨opens, -⟩
    · exact ⟨rfl, rfl⟩
    · omega
    · omega
  | next turn stays rest ih =>
    have other := k.first
    rw [turn] at other
    rcases other with ⟨closes, -⟩ | ⟨-, m, rfl, rest'⟩ | ⟨opens, -⟩
    · omega
    · obtain ⟨rfl, rfl⟩ := ih rest'
      exact ⟨rfl, rfl⟩
    · omega
  | scope turn opens inside rest ih ih' =>
    have other := k.first
    rw [turn] at other
    rcases other with ⟨closes, -⟩ | ⟨stays, -⟩ | ⟨-, ⟨_, _, _, _, rfl, inside', rest'⟩ | ⟨_, _, _, _, inside'⟩⟩
    · omega
    · omega
    · obtain ⟨rfl, same⟩ := ih inside'
      cases same
      obtain ⟨rfl, rfl⟩ := ih' rest'
      exact ⟨rfl, rfl⟩
    · cases (ih inside').2
  | broken turn opens inside ih =>
    have other := k.first
    rw [turn] at other
    rcases other with ⟨closes, -⟩ | ⟨stays, -⟩ | ⟨-, ⟨_, _, _, _, _, inside', _⟩ | ⟨_, _, rfl, rfl, inside'⟩⟩
    · omega
    · omega
    · cases (ih inside').2
    · obtain ⟨rfl, same⟩ := ih inside'
      cases same
      exact ⟨rfl, rfl⟩

end BodyRun

end Reader

open Reader

/-! ## Every reader goes forward -/

/-- The reader of the script goes forward inside the text, also where it fails: no cursor that it comes to
    lies before the one that precedes it or outside the text, and it succeeds at the last one. -/
def Script.GoesForward {α : Type} {r : Reader α} (script : Script r) : Prop :=
  ∀ c, Follows r c (script.trail c) ∧ ∀ d ∈ script.trail c,
    c.pos.offset ≤ d.pos.offset ∧ d.pos.offset ≤ (c.pos.after c.rest).offset

theorem Script.goesForward {α : Type} {r : Reader α} (script : Script r) : script.GoesForward :=
  fun c => ⟨script.follows c, fun _ member => ((script.follows c).inside member).bounds⟩

/-- The readers of single texts and lines go forward. -/
structure TextsGoForward : Prop where
  skipSpaces : Script.skipSpaces.GoesForward
  skipBlanks : Script.skipBlanks.GoesForward
  eat : ∀ ch, (Script.eat ch).GoesForward
  eatText : ∀ {text} (nonempty : text ≠ []), (Script.eatText nonempty).GoesForward
  eatKeyword : ∀ keyword, (Script.eatKeyword keyword).GoesForward
  identifier? : Script.identifier?.GoesForward
  constantName : Script.constantName.GoesForward
  rawText : ∀ stop, (Script.rawText stop).GoesForward
  someText : ∀ stop expected, (Script.someText stop expected).GoesForward
  expect : ∀ ch expected, (Script.expect ch expected).GoesForward
  expectKeyword : ∀ keyword expected, (Script.expectKeyword keyword expected).GoesForward
  remark? : Script.remark?.GoesForward
  finishLine : Script.finishLine.GoesForward

/-- The readers of statements and of their parts go forward. -/
structure StatementsGoForward : Prop where
  parenArgs : Script.parenArgs.GoesForward
  callArgs : Script.callArgs.GoesForward
  callBlock? : Script.callBlock?.GoesForward
  callOf : ∀ callee, (Script.callOf callee).GoesForward
  param : Script.param.GoesForward
  sigParam : Script.sigParam.GoesForward
  params : ∀ start, (Script.list Script.param start : Script (list methodParams start)).GoesForward
  sigParams : ∀ start, (Script.list Script.sigParam start : Script (list sigParams start)).GoesForward
  sigOp : ∀ start name, (Script.sigOp start name).GoesForward
  sigChain : ∀ {skip} (script : Script skip) (h : Forward skip), (Script.sigChain script h).GoesForward
  sig : Script.sig.GoesForward
  method : ∀ visibility, (Script.method visibility).GoesForward
  attributes : ∀ visibility access, (Script.attributes visibility access).GoesForward
  constant : Script.constant.GoesForward
  classHeader : Script.classHeader.GoesForward
  statement : Script.statement.GoesForward

/-- The readers of bodies and of the whole file go forward. -/
structure BodiesGoForward : Prop where
  strictness? : Script.strictness?.GoesForward
  closeLeaf : ∀ f start decl remarks, (Script.closeLeaf f start decl remarks).GoesForward
  closeStatement : ∀ f start s, (Script.closeStatement f start s).GoesForward
  openScope : ∀ f start scope, (Script.openScope f start scope).GoesForward
  closeScope : ∀ f start, (Script.closeScope f start).GoesForward
  closeFile : ∀ f, (Script.closeFile f).GoesForward
  fileStep : ∀ f, (Script.fileStep f).GoesForward
  body : ∀ f, (Script.body f).GoesForward
  file : Script.file.GoesForward

theorem textsGoForward : TextsGoForward where
  skipSpaces := Script.goesForward _
  skipBlanks := Script.goesForward _
  eat _ := Script.goesForward _
  eatText _ := Script.goesForward _
  eatKeyword _ := Script.goesForward _
  identifier? := Script.goesForward _
  constantName := Script.goesForward _
  rawText _ := Script.goesForward _
  someText _ _ := Script.goesForward _
  expect _ _ := Script.goesForward _
  expectKeyword _ _ := Script.goesForward _
  remark? := Script.goesForward _
  finishLine := Script.goesForward _

theorem statementsGoForward : StatementsGoForward where
  parenArgs := Script.goesForward _
  callArgs := Script.goesForward _
  callBlock? := Script.goesForward _
  callOf _ := Script.goesForward _
  param := Script.goesForward _
  sigParam := Script.goesForward _
  params _ := Script.goesForward _
  sigParams _ := Script.goesForward _
  sigOp _ _ := Script.goesForward _
  sigChain _ _ := Script.goesForward _
  sig := Script.goesForward _
  method _ := Script.goesForward _
  attributes _ _ := Script.goesForward _
  constant := Script.goesForward _
  classHeader := Script.goesForward _
  statement := Script.goesForward _

theorem bodiesGoForward : BodiesGoForward where
  strictness? := Script.goesForward _
  closeLeaf _ _ _ _ := Script.goesForward _
  closeStatement _ _ _ := Script.goesForward _
  openScope _ _ _ := Script.goesForward _
  closeScope _ _ := Script.goesForward _
  closeFile _ := Script.goesForward _
  fileStep _ := Script.goesForward _
  body _ := Script.goesForward _
  file := Script.goesForward _

/-- The reader always makes progress. Whatever it does, succeed or fail, it goes forward inside the text.
    What it accepts as a statement, an entry of a list, an argument or an operation of a signature takes at
    least one character. So all loops end, and so does the recursion of bodies: the unread text gets shorter
    from turn to turn, and without any other bound there is just one run. -/
theorem reader_always_makes_progress :
    (TextsGoForward ∧ StatementsGoForward ∧ BodiesGoForward) ∧
    (Advances statement ∧ (∀ f start, Advances (statement >>= closeStatement f start)) ∧
      Advances param ∧ Advances sigParam ∧
      (∀ args, Moves (Accepts args) (bareArgsStep args) ∧ Moves (Accepts args) (parenArgsStep args)) ∧
      ∀ ops, Advances (sigChainStep skipSpaces ops) ∧ Advances (sigChainStep skipBlanks ops)) ∧
    (EndsInTime fileStep moves_fileStep ∧
      (∀ start, EndsInTime (listStep methodParams start) (moves_listStep methodParams start) ∧
        EndsInTime (listStep sigParams start) (moves_listStep sigParams start)) ∧
      EndsInTime bareArgsStep moves_bareArgsStep ∧
      EndsInTime parenArgsStep (fun args => (advances_parenArgsStep args).moves) ∧
      EndsInTime (sigChainStep skipSpaces)
        (fun ops => (advances_sigChainStep forward_skipSpaces ops).moves) ∧
      EndsInTime (sigChainStep skipBlanks)
        (fun ops => (advances_sigChainStep forward_skipBlanks ops).moves) ∧
      EndsInTime pathStep (fun path => (advances_pathStep path).moves) ∧
      (∀ stop, rawText stop = balanced stop ∧
        EndsInTime (balancedStep stop) (moves_balancedStep stop)) ∧
      ∀ start quote, EndsInTime (literalStep start quote) (moves_literalStep start quote)) ∧
    ∀ f c, ∃ n o, (∀ m p, BodyRun f c m p ↔ m = n ∧ p = o) ∧ o.Takes c n ∧
      loop fileStep moves_fileStep f c = o.toEnd := by
  refine ⟨⟨textsGoForward, statementsGoForward, bodiesGoForward⟩,
    ⟨advances_statement, fun f start => advances_statement.start fun s => forward_closeStatement f start s,
      advances_param, advances_sigParam,
      fun args => ⟨moves_bareArgsStep_accepts args, (advances_parenArgsStep args).moves⟩,
      fun ops => ⟨advances_sigChainStep forward_skipSpaces ops,
        advances_sigChainStep forward_skipBlanks ops⟩⟩,
    ⟨endsInTime _ _, fun start => ⟨endsInTime _ _, endsInTime _ _⟩, endsInTime _ _, endsInTime _ _,
      endsInTime _ _, endsInTime _ _, endsInTime _ _,
      fun stop => ⟨rawText_eq_balanced stop, endsInTime _ _⟩, fun start quote => endsInTime _ _⟩,
    fun f c => ?_⟩
  obtain ⟨n, o, run⟩ := BodyRun.exists_run f c
  refine ⟨n, o, fun m p => ⟨fun other => other.unique run, ?_⟩, run.takes, run.loop_eq⟩
  rintro ⟨rfl, rfl⟩
  exact run

/-- A method with something behind its name: the reader comes to the second word and fails there. -/
theorem reader_always_makes_progress_halfWay :
    let c := Cursor.ofText none "def f g".toList
    Reader.statement c = .error ⟨.unexpected .endOfLine (.text "g"), ⟨6, 7⟩⟩ ∧
    (Script.statement.trail c).map (fun d => d.pos.offset) =
      [3, 4, 4, 4, 5, 5, 5, 5, 6, 6, 6, 6, 6, 6, 6, 6, 6] ∧
    (c :: Script.statement.trail c).IsChain Cursor.Reaches :=
  ⟨by rfl, by rfl, (reader_always_makes_progress.1.2.1.statement _).1.forward⟩

end InterfaceFile
