import InterfaceFile.Proofs.Reader.Accepted
import InterfaceFile.Proofs.RoundTrip.Settled

/-!
# Statements that the reader takes

Whatever statement the reader takes from a text, if it fits where it is printed, then its settled form
is printable.
-/

namespace InterfaceFile

/-! ## Settled forms are printable -/

theorem SigOp.printable_stripped {op : SigOp} (h : op.Printable) :
    (op.mapParams SigParam.stripped).Printable := by
  cases op with
  | params entries =>
    intro p member
    obtain ⟨q, inside, rfl⟩ := List.mem_map.1 member
    exact ⟨(h q inside).1, (h q inside).2.1, nofun⟩
  | _ => exact h

theorem Sig.printable_settled {s : Sig} (h : ∀ op ∈ s.ops, op.Printable) : s.settled.Printable := by
  rw [settled]
  split
  · next noted => exact ⟨h, .inl noted⟩
  · refine ⟨fun op member => ?_, .inr fun p member => ?_⟩
    · obtain ⟨op, inside, rfl⟩ := List.mem_map.1 member
      exact SigOp.printable_stripped (h op inside)
    · rw [entries, stripped, filterMap_params?_map, ← List.map_flatten] at member
      obtain ⟨q, -, rfl⟩ := List.mem_map.1 member
      rfl

/-- What the reader takes for a callee, given the arguments and the block. -/
def Callee.Taken (args : List String) (block : Option String) : Callee → Prop
  | .mixin _ | .mixesInClassMethods | .requiresAncestor => True
  | .visibility _ => block = none
  | .helper name => IsCallWord name.toList ∧ args = [] ∧ block = none
  | .typeMember name _ => isConstantPath name = true
  | .structField _ => ∃ a ∈ args.head?, a.toList.head? = some ':'
  | .other name => ∃ w mark, name.toList = w ++ mark ∧ IsCallWord w ∧
      (mark = [] ∨ mark = ['?'] ∨ mark = ['!'])

theorem Callee.parenthesized_settled (callee : Callee) (args : List String) (block : Option String) :
    Call.parenthesized {} (callee.settled args block) = Call.parenthesized {} callee := by
  cases callee with
  | other name =>
    rw [settled]
    split
    · rfl
    · split
      · split
        · rfl
        · split <;> rfl
      · rfl
  | _ => rfl

theorem Callee.printable_other {args : List String} {block : Option String} {name : String}
    (h : (Callee.other name).Taken args block) :
    ((Callee.other name).settled args block).Printable args block := by
  obtain ⟨w, mark, text, word, marks⟩ := h
  have stop : Stops isWordChar mark := by
    rcases marks with rfl | rfl | rfl
    · exact .nil
    · exact .cons rfl
    · exact .cons rfl
  have taken : name.toList.takeWhile isWordChar = w := by rw [text, stop.takeWhile_append word.1]
  have left : name.toList.dropWhile isWordChar = mark := by rw [text, stop.dropWhile_append word.1]
  have isOther : (∀ a ∈ args.head?, Stops (· = ':') a.toList) ∨ (name ≠ "const" ∧ name ≠ "prop") →
      ¬ (mark = ['!'] ∧ args = [] ∧ block = none) → (Callee.other name).Printable args block := by
    intro field helper
    refine ⟨by rwa [taken], ?_⟩
    rw [left]
    rcases marks with rfl | rfl | rfl
    · refine .inl ⟨rfl, fun named => ?_⟩
      rcases field with first | ⟨const, prop⟩
      · exact first
      · exact absurd named (by simp [const, prop])
    · exact .inr (.inl rfl)
    · refine .inr (.inr ⟨rfl, ?_⟩)
      by_cases none : args = []
      · exact .inr fun block => helper ⟨rfl, none, block⟩
      · exact .inl none
  rw [settled, left]
  split
  · next helper =>
    refine ⟨?_, helper.2⟩
    rwa [leadingWord, String.toList_ofList, taken]
  · next helper =>
    split
    · next symbol =>
      split
      · exact symbol
      · split
        · exact symbol
        · next const prop => exact isOther (.inr ⟨const, prop⟩) helper
    · next symbol =>
      refine isOther (.inl fun a member => ?_) helper
      rw [Option.mem_def.1 member] at symbol
      intro c first
      simp only [decide_eq_false_iff_not]
      rintro rfl
      simp [Option.mem_def.1 first] at symbol

/-- A call that the reader takes: clean arguments, a clean block. -/
structure Call.Taken (c : Call) : Prop where
  args : ∀ a ∈ c.args, Clean (· = ',') a
  block : ∀ b ∈ c.block, b = "" ∨ Clean (· = '}') b
  callee : c.callee.Taken c.args c.block

theorem Call.Taken.printable {c : Call} (h : c.Taken) (fits : c.Fits) : c.settled.Printable {} := by
  obtain ⟨callee, args, block⟩ := c
  refine ⟨?_, ?_, h.block⟩
  · show ArgsFit (Call.parenthesized {} (callee.settled args block)) args
    rw [callee.parenthesized_settled]
    exact fits.1
  · have taken := h.callee
    cases callee with
    | mixin _ => trivial
    | visibility level => exact ⟨taken, fits.2 level rfl⟩
    | helper name => exact taken
    | mixesInClassMethods => trivial
    | requiresAncestor => trivial
    | typeMember name template => exact taken
    | structField field =>
      obtain ⟨a, first, symbol⟩ := taken
      show args.head?.any _ = true
      rw [Option.mem_def.1 first]
      simpa using symbol
    | other name => exact Callee.printable_other taken

structure Method.Taken (m : Method) : Prop where
  name : m.name.toList ≠ [] ∧ (∀ c ∈ m.name.toList, Reader.endsMethodName c = false) ∧
    (selfDot <+: m.name.toList → m.singleton = true)
  params : ∀ p ∈ m.params, Reader.ReadParam p
  sigs : ∀ s ∈ m.sigs, ∀ op ∈ s.ops, op.Printable

structure Attribute.Taken (a : Attribute) : Prop where
  nonempty : a.names ≠ []
  names : ∀ name ∈ a.names, Stops (· = ':') name.toList
  sigs : ∀ s ∈ a.sigs, ∀ op ∈ s.ops, op.Printable

/-- A declaration that the reader takes. -/
def Declaration.Taken : Declaration → Prop
  | .scope s => s.Printable
  | .const c => isConstantPath c.name = true ∧ ∀ value ∈ c.value, Clean endsValue value
  | .method m => m.Taken
  | .attr a => a.Taken
  | .call c => c.Taken
  | .blank => False

theorem printable_map_settled {sigs : List Sig} (h : ∀ s ∈ sigs, ∀ op ∈ s.ops, op.Printable) :
    ∀ s ∈ sigs.map Sig.settled, s.Printable := by
  intro s member
  obtain ⟨s, inside, rfl⟩ := List.mem_map.1 member
  exact Sig.printable_settled (h s inside)

namespace Declaration

variable {d : Declaration}

theorem Taken.printable (h : d.Taken) (fits : d.Fits) : d.settled.Printable {} := by
  cases d with
  | scope s => exact h
  | const c => exact ⟨h.1, fun value given => ⟨h.2 value given, fits value given⟩⟩
  | method m =>
    refine ⟨h.name, fun p member => ?_, printable_map_settled h.sigs⟩
    exact (h.params p member).2 (fits p member)
  | attr a =>
    refine ⟨h.nonempty, fun name member => ?_, printable_map_settled h.sigs⟩
    exact ⟨h.names name member, fits name member⟩
  | call c => exact Call.Taken.printable h fits
  | blank => exact h.elim

/-- Signatures that the reader takes can be added. -/
theorem Taken.withSigs {sigs : List Sig} {d' : Declaration} (h : d.Taken)
    (taken : ∀ s ∈ sigs, ∀ op ∈ s.ops, op.Printable) (signed : d.withSigs? sigs = some d') :
    d'.Taken := by
  cases d with
  | method m =>
    obtain rfl := Option.some.inj signed
    refine ⟨h.name, h.params, fun s member => ?_⟩
    exact (List.mem_append.1 member).elim (h.sigs s) (taken s)
  | attr a =>
    obtain rfl := Option.some.inj signed
    refine ⟨h.nonempty, h.names, fun s member => ?_⟩
    exact (List.mem_append.1 member).elim (h.sigs s) (taken s)
  | _ => cases signed

end Declaration

/-- A statement that the reader takes. -/
def Statement.Taken : Statement → Prop
  | .leaf d remarks => d.Taken ∧ ∀ m ∈ remarks, m.comment.Printable
  | .sig s remarks => (∀ op ∈ s.ops, op.Printable) ∧ ∀ m ∈ remarks, m.comment.Printable
  | .header s => s.Printable

namespace Reader

variable {x : List Char}

/-! ## Constants and scopes -/

theorem isPathFrom_word {w tail : List Char} (all : AllWord w) (rest : isPathFrom false tail = true) :
    isPathFrom false (w ++ tail) = true := by
  induction w with
  | nil => exact rest
  | cons c w ih =>
    have word := all c List.mem_cons_self
    have later := ih fun c member => all c (List.mem_cons_of_mem _ member)
    have other : c ≠ ':' := by
      rintro rfl
      cases word
    rw [List.cons_append, isPathFrom, word, later]
    · rfl
    · rintro cs rfl
      exact absurd rfl other

theorem isPathFrom_append {w tail : List Char} (all : AllWord w) (upper : startsUpper w = true)
    (rest : isPathFrom false tail = true) : isPathFrom true (w ++ tail) = true := by
  cases w with
  | nil => cases upper
  | cons c w =>
    have capital : c.isUpper = true := by simpa [startsUpper] using upper
    have later := isPathFrom_word (fun c member => all c (List.mem_cons_of_mem _ member)) rest
    rw [List.cons_append, isPathFrom, capital, later]
    rfl

/-- A path can go on after the text. -/
def OpensPath (path : List Char) : Prop :=
  ∀ rest, isPathFrom true rest = true → isConstantPath (String.ofList (path ++ rest)) = true

theorem gives_pathStep {path : List Char} (h : OpensPath path) : Gives (pathStep path) x fun t _ =>
    TurnOf OpensPath (fun name => isConstantPath name = true) t := by
  refine (gives_word? _).bind fun word y given => ?_
  cases word with
  | none => exact gives_unexpected _
  | some word =>
    obtain ⟨-, -, means⟩ := given.1 word rfl
    have all : AllWord (x.takeWhile isWordChar) := List.all_eq_true.1 List.all_takeWhile
    split at means
    · next upper =>
      obtain rfl := Option.some.inj means
      refine gives_branch (fun _ => gives_next fun _ _ => gives_pure fun rest more => ?_)
        fun _ => gives_pure ?_
      · rw [List.append_assoc, List.append_assoc]
        exact h _ (isPathFrom_append all upper more)
      · have whole : isPathFrom true (x.takeWhile isWordChar ++ []) = true :=
          isPathFrom_append all upper rfl
        rw [List.append_nil] at whole
        exact h _ whole
    · cases means

theorem gives_constantName : Gives constantName x fun name _ => isConstantPath name = true := by
  refine gives_next fun absolute y => gives_loop (fun path x h => gives_pathStep h) ?_
  intro rest path
  rw [isConstantPath, String.toList_ofList]
  cases absolute with
  | true => exact path
  | false =>
    rw [if_neg (by decide), List.nil_append]
    split
    · cases path
    · exact path

theorem gives_superclass? : Gives superclass? x fun r _ => ∀ name ∈ r, Clean endsSuperclass name := by
  refine gives_next fun _ y => gives_branch (fun _ => ?_) fun _ => gives_pure nofun
  refine gives_next fun _ z => gives_someText.bind fun name z clean => gives_pure ?_
  rintro _ ⟨⟩
  exact clean

theorem gives_classHeader : Gives classHeader x fun s _ => s.Printable := by
  refine gives_next fun _ y => gives_branch (fun _ => ?_) fun _ => ?_
  · exact gives_next fun _ _ => gives_next fun _ _ => gives_pure rfl
  · refine gives_constantName.bind fun name z path => ?_
    exact gives_superclass?.bind fun superclass z clean => gives_pure ⟨path, clean⟩

/-! ## Declarations -/

theorem gives_methodEnd (start : Position) :
    Gives (methodEnd start) x fun r _ => ∀ m ∈ r, m.comment.Printable := by
  refine gives_next fun _ y => gives_branch (fun _ => ?_) fun _ => ?_
  · exact gives_next fun _ _ => gives_next fun _ _ => gives_pure nofun
  · refine gives_next fun stop y => gives_finishLine.bind fun remark z noted => ?_
    refine gives_next fun _ z => gives_branch (fun _ => gives_pure noted) fun _ => gives_fail _ _

theorem gives_method (visibility : Visibility) :
    Gives (method visibility) x fun s _ => s.Taken := by
  refine gives_next fun _ x => gives_eatText.bind fun singleton y dotted => ?_
  refine gives_here.bind fun start z same => (gives_readWhile _).bind fun name z' read => ?_
  obtain ⟨rfl, -⟩ := read
  subst same
  refine .ite (fun _ => gives_unexpected _) fun nonempty => ?_
  refine gives_methodParamList.bind fun params w taken => ?_
  refine (gives_methodEnd start).bind fun remark w noted => gives_pure ⟨?_, ?_⟩
  · have untyped : ∀ p ∈ params, p.type = none := fun p member => (taken p member).1
    have silent : (params.any fun p => p.type.isSome) = false := by
      rw [List.any_eq_false]
      intro p member
      rw [untyped p member]
      decide
    refine ⟨⟨?_, ?_, ?_⟩, taken, ?_⟩
    · show (String.ofList _).toList ≠ []
      rw [String.toList_ofList]
      simpa using nonempty
    · intro c member
      have inside : c ∈ (String.ofList (z.takeWhile fun c => !endsMethodName c)).toList := member
      rw [String.toList_ofList] at inside
      have holds := List.all_eq_true.1 List.all_takeWhile c inside
      simpa using holds
    · intro begins
      have inside : selfDot <+: (String.ofList (z.takeWhile fun c => !endsMethodName c)).toList := begins
      rw [String.toList_ofList] at inside
      cases singleton with
      | true => rfl
      | false =>
        have whole : x = z := dotted.1
        exact absurd (inside.trans (List.takeWhile_prefix _)) (whole ▸ dotted.2 rfl)
    · intro s member
      simp only [Method.ofTypes, silent] at member
      exact absurd member List.not_mem_nil
  · intro m member
    exact noted m (Option.mem_toList.1 member)

theorem gives_attributes (visibility : Visibility) (access : Access) :
    Gives (attributes visibility access) x fun s _ => s.Taken := by
  refine gives_next fun args y => .ite (fun _ => gives_unexpected _) fun nonempty => ?_
  refine gives_pure ⟨⟨?_, ?_, nofun⟩, nofun⟩
  · intro none
    rw [List.map_eq_nil_iff.1 none] at nonempty
    exact nonempty rfl
  · intro name member
    obtain ⟨a, -, rfl⟩ := List.mem_map.1 member
    exact stops_symbolName a

theorem gives_callStatement {callee : Callee}
    (taken : Gives callArgs x fun args _ => ∀ block, callee.Taken args block) :
    Gives (callStatement callee) x fun s _ => s.Taken := by
  have call : Gives (callOf callee) x fun c _ => c.Taken := by
    refine (gives_callArgs.and taken).bind fun args y given => ?_
    exact gives_callBlock?.bind fun block z clean => gives_pure ⟨given.1, clean, given.2 block⟩
  exact call.bind fun c y taken => gives_pure ⟨taken, nofun⟩

/-- A callee that the reader takes whatever the arguments are. -/
theorem gives_callStatement_any {callee : Callee} (taken : ∀ args block, callee.Taken args block) :
    Gives (callStatement callee) x fun s _ => s.Taken :=
  gives_callStatement fun _ args _ _ _ block => taken args block

theorem gives_afterVisibility (visibility : Visibility) :
    Gives (afterVisibility visibility) x fun s _ => s.Taken := by
  refine gives_next fun _ y => gives_next fun next y => ?_
  match next with
  | some none => exact gives_method _
  | some (some access) => exact gives_attributes _ _
  | none => exact gives_callArgs.bind fun args z clean => gives_pure ⟨⟨clean, nofun, rfl⟩, nofun⟩

theorem gives_constant : Gives constant x fun s _ => s.Taken := by
  refine gives_constantName.bind fun name y path => gives_next fun _ y => ?_
  refine gives_branch (fun _ => gives_pure ⟨⟨path, nofun⟩, nofun⟩) fun _ => ?_
  refine gives_branch (fun _ => ?_) fun _ => gives_pure ⟨⟨path, nofun⟩, nofun⟩
  refine gives_next fun _ y => gives_next fun template y => ?_
  cases template with
  | some template => exact gives_callStatement_any fun _ _ => path
  | none =>
    refine gives_someText.bind fun value z clean => gives_pure ⟨⟨path, ?_⟩, nofun⟩
    rintro _ ⟨⟩
    exact clean

theorem gives_otherCall {name : String} (word : IsCallWord name.toList) :
    Gives (otherCall name) x fun s _ => s.Taken := by
  have other : ∀ mark : String, (mark.toList = [] ∨ mark.toList = ['?'] ∨ mark.toList = ['!']) →
      ∀ args block, (Callee.other (name ++ mark)).Taken args block :=
    fun _ marks _ _ => ⟨name.toList, _, String.toList_append, word, marks⟩
  refine gives_branch (fun _ => gives_next fun _ y => ?_) fun _ => ?_
  · refine gives_branch (fun _ => gives_pure ⟨⟨nofun, nofun, word, rfl, rfl⟩, nofun⟩) fun _ => ?_
    exact gives_callStatement_any (other "!" (.inr (.inr rfl)))
  · refine gives_branch (fun _ => gives_callStatement_any (other "?" (.inr (.inl rfl)))) fun _ => ?_
    have plain := other "" (.inl rfl)
    rw [String.append_empty] at plain
    exact gives_callStatement_any plain

theorem gives_plainStatement (unknown : x.takeWhile isWordChar ≠ [] →
      Keyword.ofWord? (String.ofList (x.takeWhile isWordChar)) = none)
    (inside : x.takeWhile isWordChar ≠ "end".toList) :
    Gives plainStatement x fun s _ => s.Taken := by
  refine (gives_word? _).bind fun field y given => ?_
  cases field with
  | some field =>
    obtain ⟨-, rfl, means⟩ := given.1 field rfl
    rw [StructField.ofWord?] at means
    split at means
    · next symbol =>
      exact gives_callStatement ((gives_callArgs_symbol symbol).mono fun _ _ first _ => first)
    · cases means
  | none =>
    obtain ⟨rfl, -⟩ := given.2 rfl
    refine (gives_look _).bind fun capital y looked => ?_
    obtain ⟨rfl, rfl⟩ := looked
    refine .ite (fun _ => gives_constant) fun small => gives_identifier?.bind fun name z given => ?_
    cases name with
    | none => exact gives_unexpected _
    | some name =>
      obtain ⟨⟨all, identifier⟩, text⟩ := given.1 name rfl
      refine gives_otherCall ⟨all, identifier, ?_, ?_, ?_⟩
      · rw [text]
        simp only [startsUpper, Bool.or_eq_true, not_or, Bool.not_eq_true] at small
        rw [startsUpper, List.head?_takeWhile]
        cases first : y.head? with
        | none => rfl
        | some c =>
          have lower := small.1
          rw [first] at lower
          simp only [Option.filter]
          split
          · exact lower
          · rfl
      · rw [text]
        apply unknown
        rw [← text]
        intro none
        rw [none] at identifier
        cases identifier
      · rwa [text]

theorem taken_of_keyword {w : String} {callee : Callee} (h : Keyword.ofWord? w = some (.call callee))
    (args : List String) (block : Option String) : callee.Taken args block := by
  unfold Keyword.ofWord? at h
  split at h <;> cases h <;> trivial

theorem gives_keywordStatement {w : String} {keyword : Keyword}
    (h : Keyword.ofWord? w = some keyword) :
    Gives (keywordStatement keyword) x fun s _ => s.Taken := by
  cases keyword with
  | moduleWord => exact gives_next fun _ y => gives_constantName.bind fun _ _ path => gives_pure path
  | classWord => exact gives_classHeader.bind fun s z printable => gives_pure printable
  | defWord => exact gives_method _
  | sigWord =>
    refine gives_sig.bind fun r z given => gives_pure ⟨given.1, fun m member => ?_⟩
    exact given.2 m (Option.mem_toList.1 member)
  | visibility level => exact gives_afterVisibility _
  | attrWord access => exact gives_attributes _ _
  | call callee => exact gives_callStatement_any (taken_of_keyword h)

theorem gives_statement (inside : x.takeWhile isWordChar ≠ "end".toList) :
    Gives statement x fun s _ => s.Taken := by
  refine (gives_word? _).bind fun keyword y given => ?_
  cases keyword with
  | some keyword =>
    obtain ⟨-, -, means⟩ := given.1 keyword rfl
    exact gives_keywordStatement means
  | none =>
    obtain ⟨rfl, unknown⟩ := given.2 rfl
    exact gives_plainStatement unknown inside

end Reader

end InterfaceFile
