import InterfaceFile.Proofs.Spelling.TrackedTexts
import Mathlib.Data.List.Forall2

/-!
# Arguments, parameters and signatures in two spellings

Lists and arguments may run over several lines, so the raw texts in them may differ in carriage returns
in the middle. What is read from the two spellings is the same but for these.
-/

namespace InterfaceFile

namespace Respelling

variable {m : Respelling}

/-- The same texts in two spellings. -/
abbrev SpellsTexts (m : Respelling) : List String → List String → Prop :=
  List.Forall₂ m.SpellsText

theorem SpellsTexts.undo_eq {ss ss' : List String} (h : m.SpellsTexts ss ss') :
    ss = ss'.map m.undo := by
  induction h with
  | nil => rfl
  | cons first _ ih => rw [List.map_cons, first.undo_eq, ← ih]

theorem SpellsTexts.symbolNames {ss ss' : List String} (h : m.SpellsTexts ss ss') :
    m.SpellsTexts (ss.map Text.symbolName) (ss'.map Text.symbolName) := by
  induction h with
  | nil => exact .nil
  | cons first _ ih => exact .cons first.symbolName ih

/-- The two calls are the same once the spelling is undone. -/
def SameCall (m : Respelling) (c c' : Call) : Prop :=
  c = c'.mapTexts m.undo

/-- The same of parameters, which are read without a type. -/
def SameParam (m : Respelling) (p p' : Param) : Prop :=
  p.type = none ∧ p.unlocated = (p'.mapTexts m.undo).unlocated

def SameSigParam (m : Respelling) (p p' : SigParam) : Prop :=
  p.unlocated = (p'.mapTexts m.undo).unlocated

def SameSigOp (m : Respelling) (op op' : SigOp) : Prop :=
  op.mapParams SigParam.unlocated = (op'.mapTexts m.undo).mapParams SigParam.unlocated

def SameSig (m : Respelling) (s s' : Sig) : Prop :=
  s.unlocated = (s'.mapTexts m.undo).unlocated

/-- Lists of things that are the same have the same images. -/
theorem map_eq_of_forall₂ {α β : Type} {f g : α → β} {as as' : List α}
    (h : List.Forall₂ (fun a a' => f a = g a') as as') : as.map f = as'.map g := by
  induction h with
  | nil => rfl
  | cons first _ ih => rw [List.map_cons, List.map_cons, first, ih]

end Respelling

namespace Reader

variable {m : Respelling} {x x' : List Char}

/-! ## Arguments -/

theorem tracks_parenArgsStep {args args' : List String} (same : m.SpellsTexts args args')
    (h : m.Spells x x') :
    Tracks m False (parenArgsStep args) (parenArgsStep args') x x'
      (Turned (m.Leaves m.SpellsTexts) (m.Leaves m.SpellsTexts)) := by
  refine (tracks_skipBlanks h).bind (fun _ _ y y' aligned => ?_) fun _ _ => shuts_eat (shuts_someText _)
  refine (tracks_eat rfl aligned.spells).branch
    (fun z z' left => tracks_pure (.done ⟨List.rel_reverse same, left⟩)) ?_
  refine (tracks_someText rfl _ aligned.spells).bind (fun a a' z z' read => ?_)
    fun _ _ => shuts_skipBlanks (shuts_eat (shuts_expect _ _))
  have more : m.SpellsTexts (a :: args) (a' :: args') := .cons read.1 same
  refine (tracks_skipBlanks read.2).bind (fun _ _ w w' aligned => ?_)
    fun _ _ => shuts_eat (shuts_expect _ _)
  refine (tracks_eat rfl aligned.spells).branch
    (fun v v' left => tracks_pure (.again ⟨more, left⟩)) ?_
  exact (tracks_expect rfl _ aligned.spells).andThen fun _ _ _ _ left =>
    tracks_pure (.done ⟨List.rel_reverse more, left⟩)

theorem tracks_parenArgs (h : m.Spells x x') :
    Tracks m False parenArgs parenArgs x x' (m.Leaves m.SpellsTexts) :=
  (tracks_expect rfl _ h).andThen fun _ _ _ _ left =>
    tracks_loop (fun _ _ _ _ args => tracks_parenArgsStep args.1 args.2) ⟨.nil, left⟩

theorem tracks_bareArgsStep {args args' : List String} (same : m.SpellsTexts args args')
    (h : m.Spells x x') :
    Tracks m False (bareArgsStep args) (bareArgsStep args') x x'
      (Turned (m.Leaves m.SpellsTexts) (m.Leaves m.SpellsTexts)) := by
  refine (tracks_skipSpaces h).andThen fun _ _ y y' aligned => tracks_look (by rw [aligned.head]) ?_
  refine .ite .rfl (fun _ => tracks_pure (.done ⟨List.rel_reverse same, aligned.spells⟩)) fun _ => ?_
  refine (tracks_someText_line rfl rfl _ aligned.spells).andThen fun a a' z z' read => ?_
  have more : m.SpellsTexts (a :: args) (a' :: args') := .cons read.1 same
  exact (tracks_eat rfl read.2).branch
    (fun _ _ left => tracks_pure (.again ⟨more, left⟩))
    (tracks_pure (.done ⟨List.rel_reverse more, read.2⟩))

theorem tracks_callArgs (h : m.Spells x x') :
    Tracks m False callArgs callArgs x x' (m.Leaves m.SpellsTexts) := by
  refine (tracks_skipSpaces h).andThen fun _ _ y y' aligned => tracks_look (by rw [aligned.head]) ?_
  exact .ite .rfl (fun _ => tracks_parenArgs aligned.spells) fun _ =>
    tracks_loop (fun _ _ _ _ args => tracks_bareArgsStep args.1 args.2) ⟨.nil, aligned.spells⟩

theorem tracks_callBlock? (h : m.Spells x x') :
    Tracks m False callBlock? callBlock? x x' (m.Leaves fun b b' => b = b'.map m.undo) := by
  refine (tracks_skipSpaces h).andThen fun _ _ y y' aligned =>
    (tracks_eat rfl aligned.spells).branch (fun z z' left => ?_)
      (tracks_pure ⟨rfl, aligned.spells⟩)
  refine (tracks_rawText rfl left).bind (fun b b' w w' read => ?_) fun _ _ => shuts_expect _ _
  exact (tracks_expect rfl _ read.2).andThen fun _ _ _ _ left =>
    tracks_pure ⟨congrArg some read.1.undo_eq.symm, left⟩

theorem tracks_callOf (callee : Callee) (h : m.Spells x x') :
    Tracks m False (callOf callee) (callOf callee) x x' (m.Leaves m.SameCall) := by
  refine (tracks_callArgs h).andThen fun args args' y y' read =>
    (tracks_callBlock? read.2).andThen fun block block' z z' read' => tracks_pure ⟨?_, read'.2⟩
  rw [Respelling.SameCall, Call.mapTexts, ← read.1.undo_eq, ← read'.1]

/-! ## Parameters -/

/-- The two open lists have the same entries. -/
structure SameList {α : Type} (E : α → α → Prop) (l l' : OpenList α) : Prop where
  entries : List.Forall₂ E l.entries l'.entries
  needsComma : l'.needsComma = l.needsComma

variable {α : Type} {kind : EntryKind α} {E : α → α → Prop}

theorem tracks_listStep
    (entry : ∀ y y', m.Spells y y' → Tracks m False kind.read kind.read y y' (m.Leaves E))
    (comment : ∀ c c' a a', c.unlocated = c'.unlocated → E a a' →
      E (kind.addComment c a) (kind.addComment c' a'))
    (start start' : Nat) {l l' : OpenList α} (same : SameList E l l') (h : m.Spells x x') :
    Tracks m False (listStep kind start l) (listStep kind start' l') x x'
      (Turned (m.Leaves (SameList E)) (m.Leaves (List.Forall₂ E))) := by
  obtain ⟨entries, needsComma⟩ := l
  obtain ⟨entries', needsComma'⟩ := l'
  obtain ⟨sameEntries, rfl⟩ := same
  refine (tracks_skipBlanks h).bind (fun _ _ y y' aligned => ?_) fun _ _ =>
    shuts_eat (.after (reads_remark?_no .nil) (.after (reads_look _) (gives_fail _ _)))
  refine (tracks_eat rfl aligned.spells).branch
    (fun z z' left => tracks_pure (.done ⟨List.rel_reverse sameEntries, left⟩)) ?_
  refine (tracks_remark? aligned).option (fun r r' z z' words left => ?_) ?_
  · cases sameEntries with
    | nil => exact tracks_fail _ _ _ _
    | cons last earlier =>
      exact tracks_pure (.again ⟨⟨.cons (comment _ _ _ _ words last) earlier, rfl⟩, left.spells⟩)
  · refine tracks_atEnd aligned.spells (.ite .rfl (fun _ => tracks_fail _ _ _ _) fun _ => .ite .rfl
      (fun _ => ?_) fun _ => ?_)
    · exact (tracks_eat rfl aligned.spells).branch
        (fun _ _ left => tracks_pure (.again ⟨⟨sameEntries, rfl⟩, left⟩)) (tracks_unexpected _ _)
    · exact (entry y y' aligned.spells).andThen fun a a' z z' read =>
        tracks_pure (.again ⟨⟨.cons read.1 sameEntries, rfl⟩, read.2⟩)

theorem tracks_list
    (entry : ∀ y y', m.Spells y y' → Tracks m False kind.read kind.read y y' (m.Leaves E))
    (comment : ∀ c c' a a', c.unlocated = c'.unlocated → E a a' →
      E (kind.addComment c a) (kind.addComment c' a'))
    (start start' : Nat) (h : m.Spells x x') :
    Tracks m False (list kind start) (list kind start') x x' (m.Leaves (List.Forall₂ E)) :=
  tracks_loop (fun _ _ _ _ l => tracks_listStep entry comment start start' l.1 l.2) ⟨⟨.nil, rfl⟩, h⟩

theorem tracks_collector? (h : m.Spells x x') :
    Tracks m False collector? collector? x x'
      (Offered (fun shape shape' => shape = shape'.mapTexts m.undo) m.Spells x x') :=
  (tracks_eatText rfl h).branch (fun _ _ left => tracks_pure (.some rfl left)) <|
    (tracks_eat rfl h).branch (fun _ _ left => tracks_pure (.some rfl left)) <|
      (tracks_eat rfl h).branch (fun _ _ left => tracks_pure (.some rfl left)) <|
        tracks_pure .none

theorem tracks_paramShape (h : m.Spells x x') :
    Tracks m False paramShape paramShape x x'
      (m.Leaves fun shape shape' => shape = shape'.mapTexts m.undo) := by
  refine (tracks_eat rfl h).branch (fun y y' left => ?_) ?_
  · refine (tracks_skipSpaces left).andThen fun _ _ z z' aligned => tracks_look (by rw [aligned.head]) ?_
    refine .ite .rfl (fun _ => tracks_pure ⟨rfl, aligned.spells⟩) fun _ => ?_
    have value : Tracks m False (rawText endsEntry) (rawText endsEntry) z z' (m.Leaves m.SpellsText) :=
      (tracks_rawText rfl aligned.spells).mono (by decide) fun _ _ _ _ => id
    exact value.andThen fun _ _ _ _ read =>
      tracks_pure ⟨congrArg ParamShape.keywordOptional read.1.undo_eq.symm, read.2⟩
  · refine (tracks_skipSpaces h).andThen fun _ _ z z' aligned =>
      (tracks_eat rfl aligned.spells).branch (fun w w' left => ?_)
        (tracks_pure ⟨rfl, aligned.spells⟩)
    exact (tracks_skipSpaces left).andThen fun _ _ _ _ aligned =>
      (tracks_someText_line rfl rfl _ aligned.spells).andThen fun _ _ _ _ read =>
        tracks_pure ⟨congrArg ParamShape.optional read.1.undo_eq.symm, read.2⟩

theorem tracks_param (h : m.Spells x x') :
    Tracks m False param param x x' (m.Leaves m.SameParam) := by
  have made : ∀ {name : String} {shape shape' : ParamShape}, shape = shape'.mapTexts m.undo →
      m.SameParam { name, shape } { name, shape := shape' } := by
    rintro name _ shape' rfl
    exact ⟨rfl, rfl⟩
  refine (tracks_collector? h).option (fun shape shape' y y' same left => ?_) ?_
  · exact (tracks_identifier? left).option
      (fun _ _ _ _ name left => tracks_pure ⟨name ▸ made same, left⟩) (tracks_pure ⟨made same, left⟩)
  · refine (tracks_identifier? h).option (fun name _ y y' same left => ?_) (tracks_unexpected _ _)
    subst same
    exact (tracks_paramShape left).andThen fun _ _ _ _ read => tracks_pure ⟨made read.1, read.2⟩

theorem tracks_methodParams (start start' : Nat) (h : m.Spells x x') :
    Tracks m False (list methodParams start) (list methodParams start') x x'
      (m.Leaves (List.Forall₂ m.SameParam)) := by
  refine tracks_list (fun _ _ h => tracks_param h) (fun c c' p p' words same => ?_) start start' h
  refine ⟨same.1, ?_⟩
  have parts := same.2
  simp only [Param.unlocated, Param.mapTexts, Param.mk.injEq] at parts ⊢
  simp [methodParams, parts, words]

theorem tracks_sigParam (h : m.Spells x x') :
    Tracks m False sigParam sigParam x x' (m.Leaves m.SameSigParam) := by
  refine (tracks_identifier? h).option (fun name _ y y' same left => ?_) (tracks_unexpected _ _)
  subst same
  refine (tracks_expect rfl _ left).andThen fun _ _ _ _ left =>
    (tracks_skipSpaces left).andThen fun _ _ _ _ aligned =>
      (tracks_someText_line rfl rfl _ aligned.spells).andThen fun type type' _ _ read =>
        tracks_pure ⟨?_, read.2⟩
  rw [Respelling.SameSigParam, SigParam.mapTexts, read.1.undo_eq]

theorem tracks_sigParams (start start' : Nat) (h : m.Spells x x') :
    Tracks m False (list sigParams start) (list sigParams start') x x'
      (m.Leaves (List.Forall₂ m.SameSigParam)) := by
  refine tracks_list (fun _ _ h => tracks_sigParam h) (fun c c' p p' words same => ?_) start start' h
  simp only [Respelling.SameSigParam, SigParam.unlocated, SigParam.mapTexts, SigParam.mk.injEq] at same ⊢
  simp [sigParams, same, words]

/-! ## Signatures -/

theorem tracks_sigOp (start start' : Position) (name : String) (h : m.Spells x x') :
    Tracks m False (sigOp start name) (sigOp start' name) x x' (m.Leaves m.SameSigOp) := by
  unfold sigOp
  split
  · exact tracks_pure ⟨rfl, h⟩
  · exact tracks_pure ⟨rfl, h⟩
  · exact tracks_pure ⟨rfl, h⟩
  · exact tracks_pure ⟨rfl, h⟩
  · refine tracks_here fun _ _ => (tracks_expect rfl _ h).andThen fun _ _ _ _ left =>
      (tracks_sigParams _ _ left).andThen fun entries entries' _ _ read => tracks_pure ⟨?_, read.2⟩
    rw [Respelling.SameSigOp, SigOp.mapTexts, SigOp.mapParams, SigOp.mapParams, List.map_map]
    exact congrArg SigOp.params (Respelling.map_eq_of_forall₂ read.1)
  · refine (tracks_expect rfl _ h).andThen fun _ _ _ _ left =>
      (tracks_rawText rfl left).bind (fun type type' _ _ read => ?_) fun _ _ => shuts_expect _ _
    exact (tracks_expect rfl _ read.2).andThen fun _ _ _ _ left =>
      tracks_pure ⟨congrArg SigOp.returns read.1.undo_eq.symm, left⟩
  · exact (tracks_parenArgs h).andThen fun _ _ _ _ read =>
      tracks_pure ⟨congrArg SigOp.typeParameters read.1.symbolNames.undo_eq, read.2⟩
  · refine (tracks_parenArgs h).andThen fun args args' _ _ read => tracks_pure ⟨?_, read.2⟩
    refine congrArg SigOp.checked ?_
    cases read.1 with
    | nil => exact m.undo_empty.symm
    | cons first _ => exact first.symbolName.undo_eq.symm
  · exact tracks_here fun _ _ => tracks_fail _ _ _ _

section

variable {loses : Prop} {skip : Reader Unit} {forward : Forward skip}

theorem tracks_sigChainStep
    (skips : ∀ y y', m.Spells y y' → Tracks m loses skip skip y y' fun _ _ z z' => m.Aligned z z')
    (forward : Forward skip) {ops ops' : List SigOp} (same : List.Forall₂ m.SameSigOp ops ops')
    (h : m.Spells x x') :
    Tracks m loses (sigChainStep skip ops) (sigChainStep skip ops') x x'
      (Turned (m.Leaves (List.Forall₂ m.SameSigOp)) (m.Leaves m.SameSig)) := by
  refine tracks_here fun _ _ => (tracks_identifier? h).option (fun name _ y y' same' left => ?_)
    (tracks_unexpected _ _)
  subst same'
  refine (tracks_sigOp _ _ name left).andThen fun op op' z z' read => ?_
  have more : List.Forall₂ m.SameSigOp (op :: ops) (op' :: ops') := .cons read.1 same
  refine (skips z z' read.2).bind (fun _ _ w w' aligned => ?_) fun may _ => Forward.shuts
    ((moves_eat _).branch (forward.andThen fun _ => forward_pure _) (forward_pure _)) may
  refine (tracks_eat rfl aligned.spells).branch (fun v v' left => ?_)
    (tracks_pure (.done ⟨?_, aligned.spells⟩))
  · exact (skips v v' left).bind (fun _ _ _ _ aligned => tracks_pure (.again ⟨more, aligned.spells⟩))
      fun may _ => Forward.shuts (forward_pure _) may
  · have chain := Respelling.map_eq_of_forall₂ (List.rel_reverse more)
    rw [Respelling.SameSig, Sig.mapTexts, Sig.unlocated, Sig.unlocated, List.map_map]
    exact congrArg Sig.mk chain

theorem tracks_sigChain
    (skips : ∀ y y', m.Spells y y' → Tracks m loses skip skip y y' fun _ _ z z' => m.Aligned z z')
    (h : m.Spells x x') :
    Tracks m loses (sigChain skip forward) (sigChain skip forward) x x' (m.Leaves m.SameSig) :=
  tracks_loop (fun _ _ _ _ ops => tracks_sigChainStep skips forward ops.1 ops.2) ⟨.nil, h⟩

theorem shuts_sigChain {β : Type} {f : Sig → Reader β} :
    Shuts loses (sigChain skip forward >>= f) := by
  have fails : Gives (sigChain skip forward) [] fun _ _ => False := by
    refine gives_loop_first (I := fun _ => False) ?_ fun _ _ => False.elim
    refine gives_here.bind fun _ y same => ?_
    subst same
    exact (reads_word?_no (x := []) (absurd rfl)).goesOn.gives (gives_unexpected _)
  exact fails.bind fun _ _ => False.elim

end

theorem tracks_sig (h : m.Spells x x') :
    Tracks m False sig sig x x'
      (m.Leaves fun s s' => m.SameSig s.1 s'.1 ∧ SameRemarks s.2.toList s'.2.toList) := by
  refine (tracks_skipSpaces h).andThen fun _ _ y y' aligned =>
    (tracks_eat rfl aligned.spells).branch (fun z z' left => ?_) ?_
  · refine (tracks_skipSpaces left).andThen fun _ _ _ _ aligned =>
      (tracks_eat rfl aligned.spells).branch
        (fun _ _ left => tracks_pure ⟨⟨rfl, rfl⟩, left⟩) ?_
    exact (tracks_sigChain (fun _ _ => tracks_skipSpaces) aligned.spells).andThen fun _ _ _ _ chain =>
      (tracks_skipSpaces chain.2).andThen fun _ _ _ _ aligned =>
        (tracks_expect rfl _ aligned.spells).andThen fun _ _ _ _ left =>
          tracks_pure ⟨⟨chain.1, rfl⟩, left⟩
  · refine (tracks_eatKeyword _ aligned.spells).branch (fun z z' left => ?_) (tracks_unexpected _ _)
    refine (tracks_finishLine left).andThen fun remark remark' w w' read => ?_
    refine tracks_follows read.2 (fun left => ?_)
      (shuts_skipBlanks (shuts_eatKeyword (by decide) shuts_sigChain))
    refine (tracks_skipBlanks left).bind (fun _ _ _ _ aligned => ?_)
      fun _ _ => shuts_eatKeyword (by decide) shuts_sigChain
    refine (tracks_eatKeyword _ aligned.spells).branch
      (fun _ _ left => tracks_pure ⟨⟨rfl, read.1⟩, left⟩) ?_
    refine (tracks_sigChain (fun _ _ => tracks_skipBlanks) aligned.spells).bind (fun _ _ _ _ chain => ?_)
      fun _ _ => shuts_skipBlanks (shuts_expectKeyword (by decide) _)
    refine (tracks_skipBlanks chain.2).bind (fun _ _ _ _ aligned => ?_)
      fun _ _ => shuts_expectKeyword (by decide) _
    exact (tracks_expectKeyword _ _ aligned.spells).andThen fun _ _ _ _ left =>
      tracks_pure ⟨⟨chain.1, read.1⟩, left⟩

end Reader

end InterfaceFile
