import InterfaceFile.Proofs.Reader.PointedStatement
import InterfaceFile.Proofs.Reader.Visible
import InterfaceFile.Reader.File

/-!
# Where statements stand

A statement that is read stands between two cursors, its body inside it and its neighbours before and
after it, and the text at the first cursor tells its visibility. The reader of a file keeps its
statements so, those of every open scope from where the scope begins; when it closes a scope, these are
the statements inside. It also keeps the spans of what may turn out to be out of place, so the errors of
a file point into it.
-/

namespace InterfaceFile

variable {a b c d e m o : Cursor}

/-! ## Statements between cursors -/

/-- A node that stands from `s` to `e`. Only an empty line begins with a line end, and it covers nothing.
    A method or an attribute has the visibility that is written at `s`. -/
structure Node.Spans (s e : Cursor) (n : Node) : Prop where
  forward : s.Reaches e
  head : ∃ ch more, s.rest = ch :: more ∧ (ch = '\n' → e = s)
  loc : n.loc = some ⟨s.file, s.pos.place, e.pos.place⟩
  visibility : ∀ v ∈ n.visibility?, v = (visibilityWord? s.rest).getD .pub

namespace Outline

mutual

/-- The statement stands between `b` and `d`, and what is inside it between its own ends. -/
def Between (b d : Cursor) : Outline → Prop
  | mk node body => ∃ s e, b.Reaches s ∧ node.Spans s e ∧ BetweenAll s e body ∧ e.Reaches d

/-- The statements stand one after the other between `b` and `d`. -/
def BetweenAll (b d : Cursor) : List Outline → Prop
  | [] => b.Reaches d
  | o :: rest => ∃ m, o.Between b m ∧ BetweenAll m d rest

end

variable {os : List Outline} {statement : Outline}

theorem Between.reaches (h : statement.Between b d) : b.Reaches d := by
  obtain ⟨node, body⟩ := statement
  obtain ⟨s, e, before, spans, -, after⟩ := h
  exact (before.trans spans.forward).trans after

theorem Between.forward (h : statement.Between b d) (k : d.Reaches e) : statement.Between b e := by
  obtain ⟨node, body⟩ := statement
  obtain ⟨s, m, before, spans, inside, after⟩ := h
  exact ⟨s, m, before, spans, inside, after.trans k⟩

theorem Between.back (h : statement.Between b d) (k : a.Reaches b) : statement.Between a d := by
  obtain ⟨node, body⟩ := statement
  obtain ⟨s, m, before, spans, inside, after⟩ := h
  exact ⟨s, m, k.trans before, spans, inside, after⟩

theorem BetweenAll.reaches (h : BetweenAll b d os) : b.Reaches d := by
  induction os generalizing b with
  | nil => exact h
  | cons first rest ih =>
    obtain ⟨m, one, others⟩ := h
    exact one.reaches.trans (ih others)

theorem BetweenAll.forward (h : BetweenAll b d os) (k : d.Reaches e) : BetweenAll b e os := by
  induction os generalizing b with
  | nil => exact h.trans k
  | cons first rest ih =>
    obtain ⟨m, one, others⟩ := h
    exact ⟨m, one, ih others⟩

theorem BetweenAll.back (h : BetweenAll b d os) (k : a.Reaches b) : BetweenAll a d os := by
  cases os with
  | nil => exact k.trans h
  | cons first rest =>
    obtain ⟨m, one, others⟩ := h
    exact ⟨m, one.back k, others⟩

/-- One more statement at the end. -/
theorem BetweenAll.concat (h : BetweenAll b m os) (last : statement.Between m d) :
    BetweenAll b d (os ++ [statement]) := by
  induction os generalizing b with
  | nil => exact ⟨d, last.back h, .refl d⟩
  | cons first rest ih =>
    obtain ⟨m', one, others⟩ := h
    exact ⟨m', one, ih others⟩

end Outline

/-! ## Files that are being read -/

/-- The open scopes begin one inside the other; the innermost begins at `b`. -/
def ScopesBetween (o b : Cursor) : List OpenScope → Prop
  | [] => o.Reaches b
  | s :: outer => ∃ a, ScopesBetween o a outer ∧ Outline.BetweenAll a b s.earlier.reverse ∧
      s.start = b.pos ∧ o.Shows s.header ∧ ∃ ch more, b.rest = ch :: more ∧ ch ≠ '\n'

theorem ScopesBetween.reaches {scopes : List OpenScope} (h : ScopesBetween o b scopes) :
    o.Reaches b := by
  induction scopes generalizing b with
  | nil => exact h
  | cons s outer ih =>
    obtain ⟨a, around, earlier, -⟩ := h
    exact (ih around).trans earlier.reaches

/-- What holds of a file of which all before `c` has been read. -/
structure OpenFile.Placed (o c : Cursor) (f : OpenFile) : Prop where
  remarks : ∀ m ∈ f.remarks, o.Shows m.span
  sigs : ∀ s ∈ f.sigs, o.Shows s.2
  statements : ∃ b, ScopesBetween o b f.scopes ∧ Outline.BetweenAll b c f.statements.reverse

namespace OpenFile

variable {f : OpenFile} {remarks : List Remark}

theorem Placed.reached (h : f.Placed o c) : o.Reaches c := by
  obtain ⟨b, around, inside⟩ := h.statements
  exact around.reaches.trans inside.reaches

theorem Placed.forward (h : f.Placed o c) (k : c.Reaches d) : f.Placed o d where
  remarks := h.remarks
  sigs := h.sigs
  statements := by
    obtain ⟨b, around, inside⟩ := h.statements
    exact ⟨b, around, inside.forward k⟩

theorem Placed.await (h : f.Placed o c) (shown : ∀ m ∈ remarks, o.Shows m.span) :
    (f.await remarks).Placed o c where
  remarks m member := (List.mem_append.1 member).elim (fun new => shown m (List.mem_reverse.1 new))
    (h.remarks m)
  sigs := h.sigs
  statements := h.statements

theorem Placed.add (h : f.Placed o c) {statement : Outline} (next : statement.Between c d) :
    (f.add statement).Placed o d where
  remarks m member := absurd member List.not_mem_nil
  sigs := h.sigs
  statements := by
    obtain ⟨b, around, inside⟩ := h.statements
    refine ⟨b, around, ?_⟩
    rw [OpenFile.add, List.reverse_cons]
    exact inside.concat next

theorem Placed.danglingSig (h : f.Placed o c) : ∀ e ∈ f.danglingSig?, o.Shows e.span := by
  intro e dangling
  obtain ⟨s, last, rfl⟩ := Option.map_eq_some_iff.1 dangling
  exact h.sigs s (List.mem_of_getLast? last)

theorem Placed.dangling (h : f.Placed o c) : ∀ e ∈ f.dangling?, o.Shows e.span := by
  intro e dangling
  rcases Option.or_eq_some_iff.1 ((Option.orElse_eq_or).symm.trans dangling) with first | ⟨-, later⟩
  · obtain ⟨m, last, rfl⟩ := Option.map_eq_some_iff.1 first
    exact h.remarks m (List.mem_of_getLast? last)
  · exact h.danglingSig e later

end OpenFile

namespace Reader

variable {f : OpenFile}

/-! ## What each part of a file keeps -/

theorem points_check {wrong : Option ReadError} (h : ∀ e ∈ wrong, o.Shows e.span) :
    Points o (check wrong) c fun _ d => d = c := by
  cases wrong with
  | none => exact points_pure rfl
  | some e => exact points_fail (h e rfl)

theorem pointed_strictness? : Pointed o strictness? fun _ => True :=
  (pointed_look _).andThen fun _ => .ite
    (pointed_remark?.andThen fun
      | none => pointed_pure trivial
      | some _ => (pointed_eat _).andThen fun _ => (pointed_look _).andThen fun _ => .ite
        (pointed_skipSpaces.andThen fun _ => (pointed_eat _).andThen fun _ => pointed_pure trivial)
        (pointed_pure trivial))
    (pointed_pure trivial)

/-- What one turn keeps, and what the last one gives. -/
abbrev FileTurn (o : Cursor) : Turn OpenFile (List Outline) → Cursor → Prop :=
  TurnTo (fun f d => f.Placed o d) fun body d => Outline.BetweenAll o d body

theorem points_closeFile (h : f.Placed o c) : Points o (closeFile f) c (FileTurn o) := by
  refine (points_check h.dangling).bind fun _ d _ same => ?_
  subst same
  obtain ⟨b, around, inside⟩ := h.statements
  cases scopes : f.scopes with
  | nil =>
    rw [scopes] at around
    exact points_pure (inside.back around)
  | cons s outer =>
    rw [scopes] at around
    obtain ⟨a, -, -, -, shown, -⟩ := around
    exact points_fail shown

/-- The scope that is closed stands from where it begins to its `end`. -/
theorem points_closeScope {start : Position} (h : f.Placed o c) (passed : o.Passed c start) :
    Points o (closeScope f start) c (FileTurn o) := by
  refine (points_check h.dangling).bind fun _ c' _ same => ?_
  subst same
  refine points_here.bind fun stop c'' _ at_stop => ?_
  obtain ⟨rfl, rfl⟩ := at_stop
  obtain ⟨b, around, inside⟩ := h.statements
  cases scopes : f.scopes with
  | nil => exact points_fail passed.shows
  | cons s outer =>
    rw [scopes] at around
    obtain ⟨a, outside, earlier, start, -, ch, more, head, text⟩ := around
    refine (pointed_finishLine c'' h.reached).bind fun remark d forward _ => ?_
    refine (points_locate _ _).bind fun loc d' _ located => ?_
    obtain ⟨rfl, rfl⟩ := located
    have spans : Node.Spans b c''
        { decl := .scope s.scope
          comments := s.comments ++ remark.toList.map Remark.comment
          loc := some ⟨d'.file, s.start.place, c''.pos.place⟩ } :=
      ⟨inside.reaches, ⟨ch, more, head, fun line => absurd line text⟩, by
        rw [start, forward.file, inside.reaches.file], nofun⟩
    refine points_pure ⟨nofun, nofun, a, outside, ?_⟩
    rw [List.reverse_cons]
    exact earlier.concat ⟨b, c'', .refl b, spans, inside, forward⟩

variable {s : Cursor} {ch : Char} {more : List Char}

/-- A scope that opens begins at `s`, after the statements so far. -/
theorem points_openScope (h : f.Placed o s) (head : s.rest = ch :: more) (text : ch ≠ '\n')
    (forward : s.Reaches c) (scope : Scope) :
    Points o (openScope f s.pos scope) c fun f' d => f'.Placed o d := by
  refine (points_check h.danglingSig).bind fun _ c' _ same => ?_
  subst same
  refine (pointed_skipSpaces c' (h.reached.trans forward)).bind fun _ c₁ spaces _ => ?_
  have forward₁ := forward.trans spaces
  refine (pointed_eat _ c₁ (h.reached.trans forward₁)).bind fun _ c₂ mark _ => ?_
  have forward₂ := forward₁.trans mark
  refine .ite (fun _ => ?_) fun _ => ?_
  · refine (pointed_skipSpaces c₂ (h.reached.trans forward₂)).bind fun _ c₃ spaces₃ _ => ?_
    have forward₃ := forward₂.trans spaces₃
    refine (pointed_expectKeyword _ _ c₃ (h.reached.trans forward₃)).bind fun _ c₄ word _ => ?_
    have forward₄ := forward₃.trans word
    refine points_here.bind fun stop c₅ _ at_stop => ?_
    obtain ⟨rfl, rfl⟩ := at_stop
    refine (pointed_finishLine c₅ (h.reached.trans forward₄)).bind fun remark d ended _ => ?_
    refine (points_locate _ _).bind fun loc d' _ located => ?_
    obtain ⟨rfl, rfl⟩ := located
    refine points_pure (h.add ⟨s, c₅, .refl s, ⟨forward₄, ⟨ch, more, head, fun line => absurd line text⟩, ?_,
      nofun⟩, forward₄, ended⟩)
    rw [(forward₄.trans ended).file]
  · refine points_here.bind fun stop c₃ _ at_stop => ?_
    obtain ⟨rfl, rfl⟩ := at_stop
    refine (pointed_finishLine c₃ (h.reached.trans forward₂)).bind fun remark d ended _ => ?_
    have shown := h.reached.shows forward₂
    refine .ite (fun _ => points_fail shown) fun _ => points_pure ?_
    obtain ⟨b, around, inside⟩ := h.statements
    exact ⟨nofun, nofun, s, ⟨b, around, inside, rfl, shown, ch, more, head, text⟩, forward₂.trans ended⟩

/-- A declaration without a body stands from `s` to where its line is finished. -/
theorem points_closeLeaf (h : f.Placed o s) (head : s.rest = ch :: more) (text : ch ≠ '\n')
    (forward : s.Reaches c) {decl : Declaration}
    (visible : ∀ v ∈ decl.visibility?, v = (visibilityWord? s.rest).getD .pub) (remarks : List Remark) :
    Points o (closeLeaf f s.pos decl remarks) c fun f' d => f'.Placed o d := by
  refine points_here.bind fun stop c' _ at_stop => ?_
  obtain ⟨rfl, rfl⟩ := at_stop
  refine (pointed_finishLine c' (h.reached.trans forward)).bind fun remark d ended _ => ?_
  refine (points_locate _ _).bind fun loc d' _ located => ?_
  obtain ⟨rfl, rfl⟩ := located
  have leaf : ∀ shown comments, shown.visibility? = decl.visibility? → (Outline.mk
      { decl := shown, comments, loc := some ⟨d'.file, s.pos.place, c'.pos.place⟩ } []).Between s d' := by
    intro shown comments same
    refine ⟨s, c', .refl s, ⟨forward, ⟨ch, more, head, fun line => absurd line text⟩, ?_, ?_⟩, forward,
      ended⟩
    · rw [(forward.trans ended).file]
    · rwa [Node.visibility?, same]
  cases signing : decl.withSigs? (f.sigs.reverse.map Prod.fst) with
  | some signed =>
    have unsigned : { f with sigs := [] }.Placed o s := ⟨h.remarks, nofun, h.statements⟩
    obtain ⟨-, rfl⟩ := Declaration.withSigs?_eq_some signing
    exact points_pure (unsigned.add (leaf _ _ (decl.visibility?_withSigs _)))
  | none =>
    refine (points_check h.danglingSig).bind fun _ d'' _ same => ?_
    subst same
    exact points_pure (h.add (leaf decl _ rfl))

theorem points_closeStatement (h : f.Placed o s) (head : s.rest = ch :: more) (text : ch ≠ '\n')
    (forward : s.Reaches c) {statement : Statement}
    (noted : ∀ remark ∈ statement.remarks, o.Shows remark.span)
    (visible : ∀ v ∈ statement.visibility?, v = (visibilityWord? s.rest).getD .pub) :
    Points o (closeStatement f s.pos statement) c fun f' d => f'.Placed o d := by
  cases statement with
  | leaf decl remarks => exact points_closeLeaf h head text forward visible remarks
  | header scope => exact points_openScope h head text forward scope
  | sig sig remarks =>
    refine points_here.bind fun stop c' _ at_stop => ?_
    obtain ⟨rfl, rfl⟩ := at_stop
    refine (pointed_finishLine c' (h.reached.trans forward)).bind fun remark d ended last => ?_
    have waiting := (h.forward (forward.trans ended)).await fun m member =>
      (List.mem_append.1 member).elim (noted m) (shows_toList last m)
    exact points_pure ⟨waiting.remarks,
      List.forall_mem_cons.2 ⟨h.reached.shows forward, h.sigs⟩, waiting.statements⟩

/-- One more line. -/
theorem points_fileStep (h : f.Placed o c) : Points o (fileStep f) c (FileTurn o) := by
  refine (pointed_skipSpaces c h.reached).bind fun _ s spaces _ => ?_
  have placed := h.forward spaces
  refine points_here.bind fun start s' _ at_start => ?_
  obtain ⟨rfl, rfl⟩ := at_start
  refine (points_eat _).bind fun line d forward read => .ite (fun found => ?_) fun missing => ?_
  · rw [if_pos found] at read
    refine (points_locate _ _).bind fun loc d' _ located => ?_
    obtain ⟨rfl, rfl⟩ := located
    have spans : Node.Spans s' s' { Node.blank with loc := some ⟨d'.file, s'.pos.place, s'.pos.place⟩ } :=
      ⟨.refl s', ⟨_, _, read.1, fun _ => rfl⟩, by rw [forward.file], nofun⟩
    have blank : (Outline.mk { Node.blank with loc := some ⟨d'.file, s'.pos.place, s'.pos.place⟩ }
        []).Between s' d' := ⟨s', s', .refl s', spans, .refl s', forward⟩
    exact points_pure ⟨placed.remarks, placed.sigs, (placed.add blank).statements⟩
  rw [if_neg missing] at read
  obtain ⟨rfl, noLine⟩ := read
  refine (points_remark? placed.reached).bind fun m d forward noted => ?_
  cases m with
  | some remark =>
    refine (pointed_eat _ d (placed.reached.trans forward)).bind fun _ e further _ => points_pure ?_
    refine (placed.forward (forward.trans further)).await fun m member => ?_
    rw [List.mem_singleton.1 member]
    exact noted.2 remark rfl
  | none =>
    obtain rfl := noted.1 rfl
    refine (points_look _).bind fun last d' _ looked => ?_
    obtain ⟨rfl, rfl⟩ := looked
    refine .ite (fun _ => points_closeFile placed) fun unfinished => ?_
    refine (points_eatKeyword _).bind fun found e further same => .ite (fun _ => ?_) fun missing => ?_
    · exact points_closeScope (placed.forward further) (placed.reached.passed.forward further)
    · obtain rfl := same (Bool.eq_false_of_not_eq_true missing)
      obtain ⟨ch, more, head⟩ : ∃ ch more, e.rest = ch :: more :=
        List.exists_cons_of_ne_nil fun empty => unfinished (by rw [empty]; rfl)
      have text : ch ≠ '\n' := by
        rw [head, Stops.cons_iff] at noLine
        simpa using noLine
      refine ((pointed_statement e placed.reached).gives gives_statement_visibility).bind
        fun statement d' forward ⟨remarks, visible⟩ => ?_
      refine (points_closeStatement placed head text forward remarks visible).bind fun f' _ _ placed' => ?_
      exact points_pure placed'

/-- A file that is read is made of statements that stand one after the other in its text. -/
theorem points_file : Points o file o fun t d =>
    ∃ level body, t = .ofOutlines level body ∧ Outline.BetweenAll o d body := by
  refine (pointed_strictness? o (.refl o)).bind fun level c reached _ => ?_
  have start : ({} : OpenFile).Placed o c := ⟨nofun, nofun, c, reached, .refl c⟩
  refine (points_loop (fun f c _ h => points_fileStep h) reached start).bind fun body d _ inside => ?_
  exact points_pure ⟨level, body, rfl, inside⟩

end Reader

end InterfaceFile
