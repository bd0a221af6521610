import InterfaceFile.Proofs.Reader.Gives
import InterfaceFile.Proofs.RoundTrip.Reprint

/-!
# What the reader takes from a text

Whatever the text is, the raw text that is taken from it is clean, names are names and comments are
single lines. Lists, arguments and signatures are made of these.
-/

namespace InterfaceFile

/-! ## Raw text -/

namespace Shape

variable {stop : Char → Bool} {s t : Shape} {w : List Char}

/-- An open literal began with a quote. -/
def Quoted (s : Shape) : Prop :=
  ∀ l ∈ s.literal, isQuote l.1 = true

theorem quoted_closed (depth : Nat) : Quoted { depth } := by
  intro l none
  cases none

theorem Quoted.next (h : s.Quoted) (c : Char) : (s.next c).Quoted := by
  obtain ⟨depth, literal⟩ := s
  cases literal with
  | none =>
    simp only [Shape.next]
    split
    · exact h
    · split
      · exact h
      · split
        · next quote =>
          rintro _ ⟨⟩
          exact quote
        · exact h
  | some l =>
    have quote : isQuote l.1 = true := h l rfl
    simp only [Shape.next]
    split
    · rintro _ ⟨⟩
      exact quote
    · split
      · rintro _ ⟨⟩
        exact quote
      · split
        · exact quoted_closed depth
        · exact h

theorem Quoted.scan (h : s.Quoted) (read : Shape.scan stop s w = some t) : t.Quoted := by
  induction w generalizing s with
  | nil => exact Option.some.inj read ▸ h
  | cons c w ih =>
    rw [Shape.scan] at read
    split at read
    · cases read
    · exact ih (h.next c) read

theorem plain_of_blank {c : Char} (blank : Text.isBlank c = true) :
    (isOpener c || isCloser c || isQuote c) = false := by
  cases special : isOpener c || isCloser c || isQuote c with
  | false => rfl
  | true =>
    simp only [isOpener, isCloser, isQuote, Bool.or_eq_true, decide_eq_true_eq] at special
    rcases special with (((rfl | rfl) | rfl) | (rfl | rfl) | rfl) | rfl | rfl <;> cases blank

/-- White space neither opens nor closes anything. -/
theorem next_blank {c : Char} (blank : Text.isBlank c = true) (h : s.Quoted) :
    (s.next c).depth = s.depth ∧ (s.next c).literal.isSome = s.literal.isSome := by
  have plain := plain_of_blank blank
  obtain ⟨depth, literal⟩ := s
  cases literal with
  | none =>
    simp only [Bool.or_eq_false_iff] at plain
    simp [next, plain]
  | some l =>
    have other : c ≠ l.1 := by
      rintro rfl
      have quote : isQuote l.1 = true := h l rfl
      simp [quote] at plain
    simp only [next, if_neg other]
    split
    · exact ⟨rfl, rfl⟩
    · split <;> exact ⟨rfl, rfl⟩

/-- If everything is closed after white space, then it was closed before. -/
theorem eq_of_scan_blank (blank : ∀ c ∈ w, Text.isBlank c = true) (h : s.Quoted)
    (read : scan stop s w = some {}) : s = {} := by
  have same : s.depth = 0 ∧ s.literal.isSome = false := by
    induction w generalizing s with
    | nil =>
      obtain rfl : s = {} := Option.some.inj read
      exact ⟨rfl, rfl⟩
    | cons c w ih =>
      rw [scan] at read
      split at read
      · cases read
      · have kept := next_blank (blank c List.mem_cons_self) h
        have later := ih (fun c member => blank c (List.mem_cons_of_mem _ member)) (h.next c) read
        rwa [kept.1, kept.2] at later
  obtain ⟨depth, literal⟩ := s
  obtain ⟨rfl, none⟩ := same
  cases literal with
  | none => rfl
  | some l => cases none

/-- White space at the ends does not matter. -/
theorem scan_trim (read : scan stop {} w = some {}) : scan stop {} (Text.trim w) = some {} := by
  have front : ∀ v : List Char, scan stop {} v = some {} →
      scan stop {} (v.dropWhile Text.isBlank) = some {} := by
    intro v
    induction v with
    | nil => exact id
    | cons c v ih =>
      intro h
      by_cases blank : Text.isBlank c = true
      · rw [List.dropWhile_cons_of_pos blank]
        apply ih
        by_cases stops : stop c = true
        · rw [scan, if_pos (by simp [stopsAt, stops])] at h
          cases h
        · rwa [scan_plain (by simpa using stops) (plain_of_blank blank)] at h
      · rwa [List.dropWhile_cons_of_neg blank]
  obtain ⟨blank, all, split⟩ := Text.trim_split w
  have begun := front w read
  rw [split, scan_append] at begun
  obtain ⟨t, kept, closed⟩ := Option.bind_eq_some_iff.1 begun
  have quoted : t.Quoted := (quoted_closed 0).scan kept
  rw [kept, eq_of_scan_blank all quoted closed]

end Shape

namespace Reader

variable {stop : Char → Bool} {x : List Char}

/-- Raw text is empty or clean. -/
theorem gives_rawText : Gives (rawText stop) x fun s _ => s = "" ∨ Clean stop s := by
  intro c s d start run
  rw [rawText] at run
  split at run
  · cases run
  · next read rest pos taken =>
    cases run
    by_cases none : Text.trim read = []
    · rw [none]
      exact .inl rfl
    · refine .inr ⟨?_, ?_, ?_⟩
      · rwa [String.toList_ofList]
      · rw [String.toList_ofList]
        exact Text.trimmed_trim read
      · rw [String.toList_ofList]
        have scan : Shape.scan stop ({} : Nesting).shape read = some {} := scan_of_takeRaw taken
        exact Shape.scan_trim scan

/-- Raw text begins with the character it is taken from, unless that stops or is trimmed away. -/
theorem gives_rawText_head {ch : Char} (goes : stop ch = false) (open' : isCloser ch = false)
    (seen : Text.isBlank ch = false) :
    Gives (rawText stop) (ch :: x) fun s _ => s.toList.head? = some ch := by
  intro c s d start run
  rw [rawText, start, takeRaw, if_neg (by simp [Nesting.stopsAt, goes, open'])] at run
  split at run
  · cases run
  · next read rest pos taken =>
    cases run
    obtain ⟨more, rfl, -, -⟩ := takeRaw_split taken
    obtain ⟨blank, all, split⟩ := Text.trim_split (ch :: more)
    rw [List.dropWhile_cons_of_neg (by simp [seen])] at split
    show (String.ofList (Text.trim (ch :: more))).toList.head? = some ch
    rw [String.toList_ofList]
    cases kept : Text.trim (ch :: more) with
    | nil =>
      rw [kept] at split
      have wrong := all ch (by rw [← List.nil_append blank, ← split]; exact List.mem_cons_self)
      rw [seen] at wrong
      cases wrong
    | cons d rest =>
      rw [kept] at split
      rw [(List.cons.inj split).1]
      rfl

theorem Gives.someText {expected : Expected} {P : String → Prop}
    (h : Gives (rawText stop) x fun s _ => s = "" ∨ P s) :
    Gives (someText stop expected) x fun s _ => P s := by
  refine h.bind fun s y given => .ite (fun _ => gives_unexpected _) fun nonempty => gives_pure ?_
  exact given.resolve_left nonempty

theorem gives_someText {expected : Expected} :
    Gives (someText stop expected) x fun s _ => Clean stop s :=
  gives_rawText.someText

/-! ## Names and comments -/

theorem gives_identifier? : Gives identifier? x fun r y =>
    (∀ name ∈ r, IsName name ∧ name.toList = x.takeWhile isWordChar) ∧ (r = none → y = x) := by
  refine (gives_word? _).mono fun r y given => ⟨fun name found => ?_, fun none => (given.2 none).1⟩
  obtain ⟨-, -, means⟩ := given.1 name found
  split at means
  · next word =>
    obtain rfl := Option.some.inj means
    have all : AllWord (x.takeWhile isWordChar) := List.all_eq_true.1 List.all_takeWhile
    rw [IsName, String.toList_ofList]
    exact ⟨⟨all, word⟩, rfl⟩
  · cases means

theorem getLast?_dropTrailing (c : Char) (cs : List Char) :
    (Text.dropTrailing c cs).getLast? ≠ some c := by
  intro last
  rw [Text.dropTrailing, List.getLast?_reverse] at last
  have other := Stops.dropWhile (· = c) cs.reverse c last
  simp at other

theorem gives_remark?_line : Gives remark? x fun r y =>
    (∀ m ∈ r, IsCommentLine m.comment.text) ∧ (r = none → y = x) := by
  refine gives_here.bind fun start y same => gives_eat.bind fun found z given => ?_
  cases found with
  | false => exact gives_pure ⟨nofun, fun _ => given.1.symm.trans same⟩
  | true =>
    refine gives_next fun _ y => (gives_readWhile _).bind fun text z read => ?_
    refine gives_next fun stop z => gives_next fun loc z => gives_pure ⟨?_, nofun⟩
    rintro _ ⟨⟩
    obtain ⟨rfl, -⟩ := read
    rw [IsCommentLine, String.toList_ofList]
    refine ⟨fun member => ?_, getLast?_dropTrailing _ _⟩
    have kept := (List.dropWhile_sublist _).subset (List.mem_reverse.1 member)
    have other := List.all_eq_true.1 List.all_takeWhile '\n' (List.mem_reverse.1 kept)
    simp at other

/-- A comment is a single line. -/
theorem printable_of_isCommentLine {c : Comment} (h : IsCommentLine c.text) : c.Printable := by
  intro line member
  rw [Comment.lines, Text.lines_of_not_mem h.1, List.mem_singleton] at member
  rw [member]
  exact h.2

theorem gives_remark? : Gives remark? x fun r y =>
    (∀ m ∈ r, m.comment.Printable) ∧ (r = none → y = x) :=
  gives_remark?_line.mono fun _ _ given =>
    ⟨fun m member => printable_of_isCommentLine (given.1 m member), given.2⟩

theorem gives_finishLine : Gives finishLine x fun r _ => ∀ m ∈ r, m.comment.Printable := by
  refine gives_next fun _ y => gives_remark?.bind fun r z ⟨printable, _⟩ => ?_
  refine gives_branch (fun _ => gives_pure printable) fun _ => ?_
  exact gives_branch (fun _ => gives_pure printable) fun _ => gives_unexpected _

/-! ## Lists -/

/-- Every entry of a list is as its kind reads it, with comments added to it. -/
theorem gives_list {α : Type} {kind : EntryKind α} {P : α → Prop}
    (entry : ∀ x, Gives kind.read x fun e _ => P e)
    (comment : ∀ c e, c.Printable → P e → P (kind.addComment c e)) (start : Nat) :
    Gives (list kind start) x fun es _ => ∀ e ∈ es, P e := by
  have turn : ∀ (l : OpenList α) (x : List Char), (∀ e ∈ l.entries, P e) →
      Gives (listStep kind start l) x fun t _ =>
        TurnOf (fun l => ∀ e ∈ l.entries, P e) (fun es => ∀ e ∈ es, P e) t := by
    intro l x all
    refine gives_next fun _ y => gives_branch (fun _ => ?_) fun _ => ?_
    · exact gives_pure fun e member => all e (List.mem_reverse.1 member)
    refine gives_remark?.bind fun r z given => ?_
    cases r with
    | some remark =>
      cases entries : l.entries with
      | nil => exact gives_fail _ _
      | cons last earlier =>
        rw [entries] at all
        refine gives_pure fun e member => ?_
        rcases List.mem_cons.1 member with rfl | before
        · exact comment _ _ (given.1 remark rfl) (all last List.mem_cons_self)
        · exact all e (List.mem_cons_of_mem _ before)
    | none =>
      refine gives_branch (fun _ => gives_fail _ _) fun _ => .ite (fun _ => ?_) fun _ => ?_
      · exact gives_branch (fun _ => gives_pure all) fun _ => gives_unexpected _
      · refine (entry _).bind fun new y holds => gives_pure fun e member => ?_
        rcases List.mem_cons.1 member with rfl | before
        · exact holds
        · exact all e before
  exact gives_loop turn nofun

/-- A parameter as it is read. Only an empty default value makes it unprintable. -/
def ReadParam (p : Param) : Prop :=
  p.type = none ∧ (p.shape ≠ .keywordOptional "" → p.Printable)

theorem gives_collector? : Gives collector? x fun r _ =>
    ∀ shape ∈ r, shape = .rest ∨ shape = .keywordRest ∨ shape = .block := by
  refine gives_branch (fun _ => gives_pure ?_) fun _ => ?_
  · rintro _ ⟨⟩
    exact .inr (.inl rfl)
  refine gives_branch (fun _ => gives_pure ?_) fun _ => ?_
  · rintro _ ⟨⟩
    exact .inl rfl
  refine gives_branch (fun _ => gives_pure ?_) fun _ => gives_pure nofun
  rintro _ ⟨⟩
  exact .inr (.inr rfl)

theorem gives_paramShape {name : String} (named : IsName name) :
    Gives paramShape x fun shape _ => shape ≠ .keywordOptional "" → shape.Printable name := by
  refine gives_branch (fun _ => ?_) fun _ => ?_
  · refine gives_next fun _ y => gives_branch (fun _ => gives_pure fun _ => named) fun _ => ?_
    refine gives_rawText.bind fun value z clean => gives_pure fun filled => ⟨named, ?_⟩
    refine clean.resolve_left ?_
    rintro rfl
    exact filled rfl
  · refine gives_next fun _ y => gives_branch (fun _ => ?_) fun _ => gives_pure fun _ => named
    refine gives_next fun _ z => gives_someText.bind fun value z clean => ?_
    exact gives_pure fun _ => ⟨named, clean⟩

theorem gives_param : Gives param x fun p _ => ReadParam p := by
  refine gives_collector?.bind fun r y marked => ?_
  cases r with
  | some shape =>
    refine gives_identifier?.bind fun name z given => gives_pure ⟨rfl, fun _ => ⟨?_, nofun⟩⟩
    have named : name.getD "" = "" ∨ IsName (name.getD "") := by
      cases name with
      | none => exact .inl rfl
      | some name => exact .inr (given.1 name rfl).1
    rcases marked shape rfl with rfl | rfl | rfl <;> exact named
  | none =>
    refine gives_identifier?.bind fun name z given => ?_
    cases name with
    | none => exact gives_unexpected _
    | some name =>
      refine (gives_paramShape (given.1 name rfl).1).bind fun shape z printable => ?_
      exact gives_pure ⟨rfl, fun filled => ⟨printable filled, nofun⟩⟩

theorem gives_methodParamList : Gives methodParamList x fun ps _ => ∀ p ∈ ps, ReadParam p := by
  refine gives_next fun paren y => gives_branch (fun _ => ?_) fun _ => gives_pure nofun
  refine gives_list (fun _ => gives_param) (fun c p printable read => ?_) paren.offset
  refine ⟨read.1, fun filled => ⟨(read.2 filled).1, fun c' member => ?_⟩⟩
  rcases List.mem_append.1 member with before | new
  · exact (read.2 filled).2 c' before
  · rw [List.mem_singleton.1 new]
    exact printable

theorem gives_sigParam : Gives sigParam x fun p _ => p.Printable := by
  refine gives_identifier?.bind fun name y given => ?_
  cases name with
  | none => exact gives_unexpected _
  | some name =>
    refine gives_next fun _ z => gives_next fun _ z => gives_someText.bind fun type z clean => ?_
    exact gives_pure ⟨(given.1 name rfl).1, clean, nofun⟩

theorem gives_sigParams (start : Nat) :
    Gives (list sigParams start) x fun ps _ => ∀ p ∈ ps, p.Printable := by
  refine gives_list (fun _ => gives_sigParam) (fun c p printable read => ?_) start
  obtain ⟨named, clean, comments⟩ := read
  refine ⟨named, clean, fun c' member => ?_⟩
  rcases List.mem_append.1 member with before | new
  · exact comments c' before
  · rw [List.mem_singleton.1 new]
    exact printable

/-! ## Arguments -/

theorem gives_parenArgs : Gives parenArgs x fun args _ => ∀ a ∈ args, Clean (· = ',') a := by
  have turn : ∀ (args : List String) (x : List Char), (∀ a ∈ args, Clean (· = ',') a) →
      Gives (parenArgsStep args) x fun t _ => TurnOf (fun args => ∀ a ∈ args, Clean (· = ',') a)
        (fun args => ∀ a ∈ args, Clean (· = ',') a) t := by
    intro args x all
    refine gives_next fun _ y => gives_branch (fun _ => ?_) fun _ => ?_
    · exact gives_pure fun a member => all a (List.mem_reverse.1 member)
    refine gives_someText.bind fun arg z clean => gives_next fun _ z => ?_
    have more : ∀ a ∈ arg :: args, Clean (· = ',') a := List.forall_mem_cons.2 ⟨clean, all⟩
    refine gives_branch (fun _ => gives_pure more) fun _ => gives_next fun _ _ => gives_pure ?_
    exact fun a member => more a (List.mem_reverse.1 member)
  exact gives_next fun _ y => gives_loop turn nofun

/-- The next bare argument. -/
theorem gives_bareArgsStep (args : List String) : Gives (bareArgsStep args) x fun t _ =>
    TurnOf (fun args' => ∃ arg, args' = arg :: args ∧ Clean endsArgument arg)
      (fun args' => args' = args.reverse ∨
        ∃ arg, args' = (arg :: args).reverse ∧ Clean endsArgument arg) t := by
  refine gives_next fun _ y => gives_branch (fun _ => gives_pure (.inl rfl)) fun _ => ?_
  refine gives_someText.bind fun arg z clean => ?_
  exact gives_branch (fun _ => gives_pure ⟨arg, rfl, clean⟩)
    fun _ => gives_pure (.inr ⟨arg, rfl, clean⟩)

/-- Bare arguments that follow arguments of which `P` holds, latest first. -/
theorem gives_bareArgsTurn {P : List String → Prop}
    (next : ∀ arg args, Clean endsArgument arg → P args → P (arg :: args)) (args : List String)
    (x : List Char) (h : P args) : Gives (bareArgsStep args) x fun t _ =>
      TurnOf P (fun args' => P args'.reverse) t := by
  refine (gives_bareArgsStep args).mono fun t y given => ?_
  cases t with
  | again args' =>
    obtain ⟨arg, rfl, clean⟩ := given
    exact next arg args clean h
  | done args' =>
    rcases given with rfl | ⟨arg, rfl, clean⟩
    · show P args.reverse.reverse
      rwa [List.reverse_reverse]
    · show P (arg :: args).reverse.reverse
      rw [List.reverse_reverse]
      exact next arg args clean h

theorem clean_comma_of_bare {a : String} (h : Clean endsArgument a) : Clean (· = ',') a := by
  apply h.mono
  intro c comma
  simp [endsArgument, of_decide_eq_true comma]

theorem gives_callArgs : Gives callArgs x fun args _ => ∀ a ∈ args, Clean (· = ',') a := by
  refine gives_next fun _ y => gives_branch (fun _ => gives_parenArgs) fun z => ?_
  have bare : Gives (loop bareArgsStep moves_bareArgsStep []) z
      fun args _ => ∀ a ∈ args.reverse, Clean (· = ',') a := by
    have turn := gives_bareArgsTurn (P := fun args => ∀ a ∈ args, Clean (· = ',') a)
      fun arg args clean all => List.forall_mem_cons.2 ⟨clean_comma_of_bare clean, all⟩
    exact gives_loop turn nofun
  exact bare.mono fun args y all a member => all a (List.mem_reverse.2 member)

/-- Does the earliest of the arguments, latest first, begin with a colon? -/
def EndsWithSymbol (args : List String) : Prop :=
  ∃ a ∈ args.getLast?, a.toList.head? = some ':'

theorem EndsWithSymbol.cons {args : List String} (h : EndsWithSymbol args) (arg : String) :
    EndsWithSymbol (arg :: args) := by
  obtain ⟨a, last, symbol⟩ := h
  refine ⟨a, ?_, symbol⟩
  rw [List.getLast?_cons, Option.mem_def.1 last]
  rfl

/-- Where a symbol follows, it is the first argument. -/
theorem gives_callArgs_symbol
    (symbol : (x.dropWhile fun c => c = ' ' || c = '\t').head? = some ':') :
    Gives callArgs x fun args _ => ∃ a ∈ args.head?, a.toList.head? = some ':' := by
  obtain ⟨rest, text⟩ : ∃ rest, x.dropWhile isLineSpace = ':' :: rest := by
    obtain ⟨rest, gap⟩ := List.head?_eq_some_iff.1 symbol
    refine ⟨rest, ?_⟩
    rw [← List.takeWhile_append_dropWhile (p := fun c => c = ' ' || c = '\t') (l := x), gap]
    refine Stops.dropWhile_append (.cons rfl) fun c member => ?_
    have space := List.all_eq_true.1 List.all_takeWhile c member
    simp only [isLineSpace, space, Bool.true_or]
  refine gives_skipSpaces.bind fun _ y skipped => ?_
  rw [text] at skipped
  subst skipped
  refine (gives_look _).bind fun paren y looked => ?_
  obtain ⟨rfl, rfl⟩ := looked
  refine .ite (fun no => by simp at no) fun _ => ?_
  have first : Gives (bareArgsStep []) (':' :: rest) fun t _ =>
      TurnOf EndsWithSymbol (fun args => EndsWithSymbol args.reverse) t := by
    refine gives_skipSpaces.bind fun _ y skipped => ?_
    rw [List.dropWhile_cons_of_neg (by decide)] at skipped
    subst skipped
    refine (gives_look _).bind fun ends y looked => ?_
    obtain ⟨rfl, rfl⟩ := looked
    refine .ite (fun no => by simp at no) fun _ => ?_
    have head : Gives (rawText endsArgument) (':' :: rest) fun a _ => a.toList.head? = some ':' :=
      gives_rawText_head rfl rfl rfl
    refine (head.mono fun _ _ => .inr).someText.bind fun arg z symbol => ?_
    exact gives_branch (fun _ => gives_pure ⟨arg, rfl, symbol⟩)
      fun _ => gives_pure ⟨arg, rfl, symbol⟩
  refine (gives_loop_first first (gives_bareArgsTurn fun arg args _ h => h.cons arg)).mono ?_
  rintro args y ⟨a, last, symbol⟩
  rw [List.getLast?_reverse] at last
  exact ⟨a, last, symbol⟩

theorem gives_callBlock? :
    Gives callBlock? x fun block _ => ∀ b ∈ block, b = "" ∨ Clean (· = '}') b := by
  refine gives_next fun _ y => gives_branch (fun _ => ?_) fun _ => gives_pure nofun
  refine gives_rawText.bind fun block z clean => gives_next fun _ z => gives_pure ?_
  rintro _ ⟨⟩
  exact clean

/-! ## Signatures -/

theorem stops_symbolName (a : String) : Stops (· = ':') (Text.symbolName a).toList := by
  rw [Text.symbolName, String.toList_ofList]
  exact Stops.dropWhile _ _

/-- A clean text is a symbol, with a colon in place of its own colons. -/
theorem isSymbol_symbolName {a : String} (colon : stop ':' = false) (clean : Clean stop a) :
    IsSymbol stop (Text.symbolName a) := by
  obtain ⟨-, ⟨-, back⟩, scan⟩ := clean
  have text : (":" ++ Text.symbolName a).toList = ':' :: a.toList.dropWhile (· = ':') := by
    rw [String.toList_append, Text.symbolName]
    exact congrArg (':' :: ·) String.toList_ofList
  have rest : ∀ cs : List Char, Shape.scan stop {} cs = some {} →
      Shape.scan stop {} (cs.dropWhile (· = ':')) = some {} := by
    intro cs
    induction cs with
    | nil => exact id
    | cons c cs ih =>
      intro h
      by_cases same : c = ':'
      · subst same
        rw [List.dropWhile_cons_of_pos rfl]
        apply ih
        rwa [Shape.scan_plain colon rfl] at h
      · rwa [List.dropWhile_cons_of_neg (by simpa using same)]
  refine ⟨stops_symbolName a, ?_⟩
  rw [Clean, text]
  refine ⟨List.cons_ne_nil _ _, ⟨.cons rfl, ?_⟩, ?_⟩
  · rw [List.reverse_cons]
    by_cases none : a.toList.dropWhile (· = ':') = []
    · rw [none]
      exact .cons rfl
    · have split := List.takeWhile_append_dropWhile (p := (· = ':')) (l := a.toList)
      rw [← split, List.reverse_append] at back
      cases kept : (a.toList.dropWhile (· = ':')).reverse with
      | nil => exact absurd (List.reverse_eq_nil_iff.1 kept) none
      | cons c cs =>
        rw [kept] at back
        exact .cons (Stops.cons_iff.1 back)
  · rw [Shape.scan_plain colon rfl]
    exact rest _ scan

theorem gives_sigOp (start : Position) (name : String) :
    Gives (sigOp start name) x fun op _ => op.Printable := by
  unfold sigOp
  split
  · exact gives_pure trivial
  · exact gives_pure trivial
  · exact gives_pure trivial
  · exact gives_pure trivial
  · refine gives_next fun paren y => gives_next fun _ y => ?_
    exact (gives_sigParams _).bind fun entries z printable => gives_pure printable
  · refine gives_next fun _ y => gives_rawText.bind fun type z clean => ?_
    exact gives_next fun _ _ => gives_pure clean
  · refine gives_parenArgs.bind fun args z clean => gives_pure fun name member => ?_
    obtain ⟨a, inside, rfl⟩ := List.mem_map.1 member
    exact isSymbol_symbolName rfl (clean a inside)
  · refine gives_parenArgs.bind fun args z clean => gives_pure ?_
    cases args with
    | nil => exact (by decide : IsSymbol (· = ',') "")
    | cons a args => exact isSymbol_symbolName rfl (clean a List.mem_cons_self)
  · exact gives_next fun _ _ => gives_fail _ _

theorem gives_sigChain (skip : Reader Unit) (h : Forward skip) :
    Gives (sigChain skip h) x fun s _ => ∀ op ∈ s.ops, op.Printable := by
  have turn : ∀ (ops : List SigOp) (x : List Char), (∀ op ∈ ops, op.Printable) →
      Gives (sigChainStep skip ops) x fun t _ => TurnOf (fun ops => ∀ op ∈ ops, op.Printable)
        (fun s => ∀ op ∈ s.ops, op.Printable) t := by
    intro ops x all
    refine gives_next fun start y => gives_next fun name y => ?_
    cases name with
    | none => exact gives_unexpected _
    | some name =>
      refine (gives_sigOp start name).bind fun op z printable => gives_next fun _ z => ?_
      have more : ∀ op' ∈ op :: ops, op'.Printable := List.forall_mem_cons.2 ⟨printable, all⟩
      refine gives_branch (fun _ => gives_next fun _ _ => gives_pure more) fun _ => gives_pure ?_
      exact fun op' member => more op' (List.mem_reverse.1 member)
  exact gives_loop turn nofun

theorem gives_sig : Gives sig x fun r _ =>
    (∀ op ∈ r.1.ops, op.Printable) ∧ ∀ m ∈ r.2, m.comment.Printable := by
  refine gives_next fun _ y => gives_branch (fun _ => ?_) fun _ => ?_
  · refine gives_next fun _ y => gives_branch (fun _ => gives_pure ⟨nofun, nofun⟩) fun _ => ?_
    refine (gives_sigChain _ _).bind fun s z printable => gives_next fun _ z => ?_
    exact gives_next fun _ _ => gives_pure ⟨printable, nofun⟩
  · refine gives_branch (fun _ => ?_) fun _ => gives_unexpected _
    refine gives_finishLine.bind fun remark z noted => gives_next fun _ z => ?_
    refine gives_branch (fun _ => gives_pure ⟨nofun, noted⟩) fun _ => ?_
    refine (gives_sigChain _ _).bind fun s z printable => gives_next fun _ z => ?_
    exact gives_next fun _ _ => gives_pure ⟨printable, noted⟩

end Reader

end InterfaceFile
