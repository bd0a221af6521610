import InterfaceFile.Proofs.RoundTrip.ReadParameters

/-!
# Signatures are read back

A printed signature is a chain of operations with dots between them, on one line or as a block. The
layouts differ only in white space and in the layout of the parameters.
-/

namespace InterfaceFile

/-- The operation as it is printed on one line. -/
def SigOp.text : SigOp → String
  | .abstract => "abstract"
  | .override => "override"
  | .overridable => "overridable"
  | .void => "void"
  | .typeParameters names =>
    "type_parameters(" ++ Text.join ", " (names.map (":" ++ ·)) ++ ")"
  | .params entries => "params(" ++ Text.join ", " (entries.map SigParam.render) ++ ")"
  | .returns type => "returns(" ++ type ++ ")"
  | .checked level => "checked(:" ++ level ++ ")"

namespace Text

/-- A join inside a join is one join. -/
theorem join_append_join (separator : String) {ys : List String} (nonempty : ys ≠ []) :
    ∀ xs : List String, join separator (xs ++ [join separator ys]) = join separator (xs ++ ys)
  | [] => join_singleton _ _
  | x :: xs => by
    have step : ∀ zs : List String, xs ++ zs ≠ [] →
        join separator (x :: (xs ++ zs)) = x ++ separator ++ join separator (xs ++ zs) := by
      intro zs more
      cases rest : xs ++ zs with
      | nil => exact absurd rest more
      | cons z zs => exact join_cons_cons _ _ _ _
    rw [List.cons_append, List.cons_append, step _ (by simp), step ys (by simp [nonempty]),
      join_append_join separator nonempty xs]

theorem toList_parens (word inside : String) :
    (word ++ "(" ++ inside ++ ")").toList = word.toList ++ '(' :: (inside.toList ++ [')']) := by
  simp

theorem toList_join_dot (texts : List String) :
    (join "." texts).toList = ['.'].intercalate (texts.map String.toList) := by
  rw [join, String.toList_intercalate]
  rfl

end Text

namespace Sig

/-- The operations of which `pick` gives the text. -/
theorem map_text_filter {pick : SigOp → Option String}
    (texts : ∀ op t, pick op = some t → t = op.text) (ops : List SigOp) :
    (ops.filter fun op => (pick op).isSome).map SigOp.text = ops.filterMap pick := by
  induction ops with
  | nil => rfl
  | cons op ops ih =>
    cases picked : pick op with
    | none => simpa [picked] using ih
    | some t => simpa [picked, texts op t picked] using ih

theorem text_of_flag? (op : SigOp) (t : String) (h : op.flag? = some t) : t = op.text := by
  cases op <;> cases h <;> rfl

theorem text_of_result? (op : SigOp) (t : String) (h : op.result? = some t) : t = op.text := by
  cases op <;> cases h <;> rfl

theorem text_of_check? (op : SigOp) (t : String) (h : op.check? = some t) : t = op.text := by
  cases op <;> cases h
  rfl

theorem trailerText?_eq (s : Sig) : s.trailerText? =
    if s.trailerOps = [] then none else some (Text.join "." (s.trailerOps.map SigOp.text)) := by
  have texts : s.trailerOps.map SigOp.text = s.ops.filterMap SigOp.flag? ++
      (s.ops.filterMap SigOp.result?).getLast?.toList ++
        (s.ops.filterMap SigOp.check?).getLast?.toList := by
    rw [trailerOps, List.map_append, List.map_append, map_text_filter text_of_flag?,
      ← map_text_filter text_of_result?, ← map_text_filter text_of_check?, List.getLast?_map,
      List.getLast?_map, Option.toList_map, Option.toList_map]
  rw [trailerText?, ← texts]
  cases s.trailerOps with
  | nil => rfl
  | cons op ops => rfl

theorem typeParametersText?_eq (s : Sig) :
    s.typeParametersText?.toList = s.typeParametersOp.map SigOp.text := by
  rw [typeParametersText?, typeParametersOp]
  cases s.ops.flatMap SigOp.typeNames <;> rfl

theorem map_text_paramsOp (s : Sig) : s.paramsOp.map SigOp.text =
    (s.allParams?.map fun entries =>
      "params(" ++ Text.join ", " (entries.map SigParam.render) ++ ")").toList := by
  rw [paramsOp]
  cases s.allParams? <;> rfl

theorem chainTexts_eq (s : Sig) : s.chainTexts =
    (s.typeParametersOp ++ s.paramsOp).map SigOp.text ++ s.trailerText?.toList := by
  rw [List.map_append, map_text_paramsOp, ← typeParametersText?_eq, chainTexts]
  cases s.typeParametersText? <;> cases s.allParams? <;> cases s.trailerText? <;> rfl

theorem chainTexts_eq_nil (s : Sig) : s.chainTexts = [] ↔ s.inOrder = [] := by
  rw [chainTexts_eq, inOrder, trailerText?_eq]
  by_cases none : s.trailerOps = [] <;> simp [none]

/-- The text of a signature on one line is the text of its operations in printed order. -/
theorem chainText_eq (s : Sig) : s.chainText = Text.join "." (s.inOrder.map SigOp.text) := by
  have parts : s.inOrder.map SigOp.text =
      (s.typeParametersOp ++ s.paramsOp).map SigOp.text ++ s.trailerOps.map SigOp.text :=
    List.map_append
  rw [chainText, chainTexts_eq, trailerText?_eq, parts]
  by_cases none : s.trailerOps = []
  · simp [none]
  · rw [if_neg none, Option.toList_some, Text.join_append_join "." (by simpa using none)]

end Sig

namespace Reader

variable {x y : List Char}

/-- The operation is read from the text, whatever follows but a character of a word. -/
def ReadsOp (text : List Char) (op : SigOp) : Prop :=
  ∃ (name : String) (args : List Char), text = name.toList ++ args ∧ IsName name ∧ name ≠ "end" ∧
    ∀ x start, Stops isWordChar x → Stops isWordChar (args ++ x) ∧
      Reads (sigOp start name) (args ++ x) x fun r => r.mapParams SigParam.unlocated = op

/-- A parameter operation in any layout of its list. -/
theorem readsOp_params {ps : List SigParam} (h : ∀ p ∈ ps, p.Printable) {body : List Char}
    (listed : ∀ x, ∃ y,
      Listed (ps.map (Item.of SigParam.render SigParam.comments SigParam.bare)) (body ++ ')' :: x) y ∧
        y.dropWhile Text.isBlank = ')' :: x) :
    ReadsOp ("params(".toList ++ (body ++ [')'])) (.params (ps.map SigParam.written)) := by
  refine ⟨"params", '(' :: (body ++ [')']), rfl, by decide, by decide, fun x start _ => ?_⟩
  refine ⟨.cons rfl, ?_⟩
  obtain ⟨y, listed, close⟩ := listed x
  have text : '(' :: (body ++ [')']) ++ x = '(' :: (body ++ ')' :: x) := by simp
  rw [text]
  refine reads_here.bind fun paren _ => ?_
  refine (reads_expect '(' _).followedBy ?_
  refine (reads_sigParams h listed close paren.offset).bind fun r same => reads_pure ?_
  rw [SigOp.mapParams, same]

theorem symbolName_colon {name : String} (h : Stops (· = ':') name.toList) :
    Text.symbolName (":" ++ name) = name := by
  have text : (":" ++ name).toList = [':'] ++ name.toList := by simp
  rw [Text.symbolName, text, h.dropWhile_append (by simp), String.ofList_toList]

/-- Names as they are printed. -/
def symbolTexts (names : List String) : List String :=
  names.map (":" ++ ·)

theorem map_symbolName {stop : Char → Bool} {names : List String}
    (h : ∀ name ∈ names, IsSymbol stop name) : (symbolTexts names).map Text.symbolName = names := by
  rw [symbolTexts, List.map_map]
  refine (List.map_congr_left fun name inside => ?_).trans (List.map_id names)
  exact symbolName_colon (h name inside).1

theorem clean_symbolTexts {stop : Char → Bool} {names : List String}
    (h : ∀ name ∈ names, IsSymbol stop name) : ∀ a ∈ symbolTexts names, Clean stop a := by
  intro a member
  obtain ⟨name, inside, rfl⟩ := List.mem_map.1 member
  exact (h name inside).2

/-- An operation that is only a word. -/
theorem readsOp_word {name : String} {op : SigOp} (isName : IsName name) (other : name ≠ "end")
    (reads : ∀ start, sigOp start name = pure op) (same : op.mapParams SigParam.unlocated = op) :
    ReadsOp name.toList op := by
  refine ⟨name, [], (List.append_nil _).symm, isName, other, fun x start stop => ⟨stop, ?_⟩⟩
  rw [reads start]
  exact reads_pure same

theorem readsOp_typeParameters {names : List String} (h : ∀ name ∈ names, IsSymbol (· = ',') name) :
    ReadsOp (SigOp.typeParameters names).text.toList (.typeParameters names) := by
  have text : (SigOp.typeParameters names).text.toList = "type_parameters".toList ++
      '(' :: ((Text.join ", " (names.map (":" ++ ·))).toList ++ [')']) :=
    Text.toList_parens "type_parameters" _
  refine ⟨"type_parameters", _, text, by decide, by decide, fun x start _ => ⟨.cons rfl, ?_⟩⟩
  have args : Reads parenArgs _ x _ := reads_parenArgs (clean_symbolTexts h)
  rw [List.cons_append, List.append_assoc]
  refine args.followedBy (reads_pure ?_)
  show SigOp.typeParameters _ = _
  rw [map_symbolName h]

theorem readsOp_returns {type : String} (h : type = "" ∨ Clean (· = ')') type) :
    ReadsOp (SigOp.returns type).text.toList (.returns type) := by
  have text : (SigOp.returns type).text.toList = "returns".toList ++ '(' :: (type.toList ++ [')']) :=
    Text.toList_parens "returns" type
  refine ⟨"returns", _, text, by decide, by decide, fun x start _ => ⟨.cons rfl, ?_⟩⟩
  rw [List.cons_append, List.append_assoc]
  refine (reads_expect '(' _).followedBy ?_
  have read : Reads (rawText (· = ')')) (type.toList ++ ')' :: x) (')' :: x) (· = type) := by
    rcases h with rfl | clean
    · exact (reads_rawText (r := []) rfl (.cons rfl)).mono fun _ same => same
    · exact reads_rawText_clean clean (.cons rfl)
  refine read.followedBy ?_
  exact (reads_expect ')' _).followedBy (reads_pure rfl)

theorem readsOp_checked {level : String} (h : IsSymbol (· = ',') level) :
    ReadsOp (SigOp.checked level).text.toList (.checked level) := by
  have text : (SigOp.checked level).text.toList = "checked".toList ++
      '(' :: ((Text.join ", " [":" ++ level]).toList ++ [')']) := by
    rw [Text.join_singleton]
    show ("checked(:" ++ level ++ ")").toList = _
    simp
  refine ⟨"checked", _, text, by decide, by decide, fun x start _ => ⟨.cons rfl, ?_⟩⟩
  have clean : ∀ a ∈ [":" ++ level], Clean (· = ',') a :=
    fun a member => List.mem_singleton.1 member ▸ h.2
  have args : Reads parenArgs _ x _ := reads_parenArgs clean
  rw [List.cons_append, List.append_assoc]
  refine args.followedBy (reads_pure ?_)
  exact congrArg SigOp.checked (symbolName_colon h.1)

/-- Parameters without comments on one line. -/
theorem readsOp_params_line {ps : List SigParam} (h : ∀ p ∈ ps, p.Printable)
    (silent : ∀ p ∈ ps, p.comments = []) :
    ReadsOp (SigOp.params ps).text.toList (.params (ps.map SigParam.written)) := by
  have text : (SigOp.params ps).text.toList = "params(".toList ++
      ((Text.join ", " (ps.map SigParam.render)).toList ++ [')']) := by
    show ("params(" ++ Text.join ", " (ps.map SigParam.render) ++ ")").toList = _
    rw [String.toList_append, String.toList_append, List.append_assoc]
    rfl
  rw [text]
  refine readsOp_params h fun x => ⟨')' :: x, ?_, Stops.dropWhile_eq (.cons (by decide))⟩
  by_cases none : ps = []
  · subst none
    exact .nil _
  · exact listed_join _ _ _ ps [] none (by simp) silent

/-- Every printable operation is read back from its text on one line. -/
theorem readsOp_text {op : SigOp} (h : op.Printable)
    (silent : ∀ p ∈ op.params?.getD [], p.comments = []) :
    ReadsOp op.text.toList (op.mapParams SigParam.written) := by
  cases op with
  | abstract => exact readsOp_word (by decide) (by decide) (fun _ => rfl) rfl
  | override => exact readsOp_word (by decide) (by decide) (fun _ => rfl) rfl
  | overridable => exact readsOp_word (by decide) (by decide) (fun _ => rfl) rfl
  | void => exact readsOp_word (by decide) (by decide) (fun _ => rfl) rfl
  | typeParameters names => exact readsOp_typeParameters h
  | params entries => exact readsOp_params_line h silent
  | returns type => exact readsOp_returns h
  | checked level => exact readsOp_checked h

/-! ## Chains -/

/-- The operations without the locations in them. -/
def unlocatedOps (ops : List SigOp) : List SigOp :=
  ops.map (SigOp.mapParams SigParam.unlocated)

/-- A text with dots between its parts. -/
def dotted (texts : List (List Char)) : List Char :=
  ['.'].intercalate texts

theorem dotted_cons (text : List Char) {texts : List (List Char)} (more : texts ≠ []) :
    dotted (text :: texts) = text ++ '.' :: dotted texts := by
  rw [dotted, List.intercalate_cons_of_ne_nil more]
  simp [dotted]

theorem stops_readsOp {text : List Char} {op : SigOp} (h : ReadsOp text op) (x : List Char) :
    Stops Text.isBlank (text ++ x) := by
  obtain ⟨name, args, rfl, isName, -⟩ := h
  rw [List.append_assoc]
  exact isName.stops (fun c word => isBlank_of_isWordChar word) _

theorem stops_dotted {text : List Char} {op : SigOp} (h : ReadsOp text op)
    (texts : List (List Char)) (x : List Char) : Stops Text.isBlank (dotted (text :: texts) ++ x) := by
  cases texts with
  | nil =>
    rw [dotted, List.intercalate_singleton]
    exact stops_readsOp h x
  | cons next texts =>
    rw [dotted_cons text (by simp), List.append_assoc]
    exact stops_readsOp h _

/-- A chain is read operation by operation. `skip` skips the white space around the dots, of which
    there is none, and after the last operation. -/
theorem reads_sigChainLoop {skip : Reader Unit} (forward : Forward skip)
    (stay : ∀ z, Stops Text.isBlank z → Reads skip z z (· = ())) (last : Reads skip x y (· = ()))
    (stop : Stops isWordChar x) (noDot : Stops (· = '.') y) :
    ∀ (items : List (List Char × SigOp)) (before : List SigOp), items ≠ [] →
      (∀ i ∈ items, ReadsOp i.1 i.2) →
      Reads (loop (sigChainStep skip) (fun ops => (advances_sigChainStep forward ops).moves) before)
        (dotted (items.map Prod.fst) ++ x) y
        fun s => unlocatedOps s.ops = unlocatedOps before.reverse ++ items.map Prod.snd
  | [], _, nonempty, _ => absurd rfl nonempty
  | [(text, op)], before, _, reads => by
    obtain ⟨name, args, eq, isName, -, read⟩ := reads _ List.mem_cons_self
    refine Reads.done (reads_here.bind fun start _ => ?_)
    obtain ⟨word, read⟩ := read x start stop
    have layout : dotted ([(text, op)].map Prod.fst) ++ x = name.toList ++ (args ++ x) := by
      rw [List.map_singleton, dotted, List.intercalate_singleton, ← List.append_assoc]
      exact congrArg (· ++ x) eq
    rw [layout]
    refine (reads_identifier? isName word).followedBy ?_
    refine read.bind fun r same => ?_
    refine last.followedBy ?_
    refine (reads_eat_no noDot).followedBy (reads_pure ⟨_, rfl, ?_⟩)
    simp [unlocatedOps, same]
  | (text, op) :: next :: rest, before, _, reads => by
    obtain ⟨name, args, eq, isName, -, read⟩ := reads _ List.mem_cons_self
    have later := reads_sigChainLoop forward stay last stop noDot (next :: rest)
    have layout : dotted (((text, op) :: next :: rest).map Prod.fst) ++ x =
        name.toList ++ (args ++ '.' :: (dotted ((next :: rest).map Prod.fst) ++ x)) := by
      rw [List.map_cons, dotted_cons _ (by simp)]
      show text ++ _ ++ x = _
      rw [show text = name.toList ++ args from eq]
      simp
    rw [layout]
    refine Reads.again (reads_here.bind fun start _ => ?_) (S := fun ops => ∃ r, ops = r :: before ∧
      r.mapParams SigParam.unlocated = op) (y := dotted ((next :: rest).map Prod.fst) ++ x) ?_
    · obtain ⟨word, read⟩ := read ('.' :: (dotted ((next :: rest).map Prod.fst) ++ x)) start
        (.cons rfl)
      refine (reads_identifier? isName word).followedBy ?_
      refine read.bind fun r same => ?_
      refine (stay _ (.cons (by decide))).followedBy ?_
      refine (reads_eat '.').followedBy ?_
      have front := stops_dotted (reads next (by simp)) (rest.map Prod.fst) x
      exact (stay _ front).followedBy (reads_pure ⟨_, rfl, r, rfl, same⟩)
    · rintro _ ⟨r, rfl, same⟩
      refine (later (r :: before) (by simp) fun i member =>
        reads i (List.mem_cons_of_mem _ member)).mono fun s final => ?_
      rw [final]
      simp [unlocatedOps, same]

/-- The chain of a signature on one line. -/
theorem reads_sigChain_line {items : List (List Char × SigOp)} (nonempty : items ≠ [])
    (reads : ∀ i ∈ items, ReadsOp i.1 i.2) :
    Reads (sigChain skipSpaces forward_skipSpaces) (dotted (items.map Prod.fst) ++ ' ' :: '}' :: x)
      ('}' :: x) fun s => unlocatedOps s.ops = items.map Prod.snd :=
  reads_sigChainLoop forward_skipSpaces (fun _ front => reads_skipSpaces_stay front.lineSpace)
    (reads_skipSpaces_one (.cons rfl)) (.cons rfl) (.cons rfl) items [] nonempty reads

/-- The chain of a signature in a block, with the `end` on a line of its own. -/
theorem reads_sigChain_block {items : List (List Char × SigOp)} (nonempty : items ≠ [])
    (reads : ∀ i ∈ items, ReadsOp i.1 i.2) (n : Nat) :
    Reads (sigChain skipBlanks forward_skipBlanks)
      (dotted (items.map Prod.fst) ++ '\n' :: (List.replicate n ' ' ++ 'e' :: x)) ('e' :: x)
        fun s => unlocatedOps s.ops = items.map Prod.snd := by
  have last : Reads skipBlanks ('\n' :: (List.replicate n ' ' ++ 'e' :: x)) ('e' :: x) (· = ()) :=
    reads_skipBlanks_to (dropWhile_indentation n (.cons (by decide)))
  exact reads_sigChainLoop forward_skipBlanks (fun _ front => reads_skipBlanks_stay front) last
    (.cons rfl) (.cons rfl) items [] nonempty reads

/-! ## The operations of a signature -/

theorem mem_trailerOps {s : Sig} {op : SigOp} (h : op ∈ s.trailerOps) : op ∈ s.ops ∧
    (op.flag?.isSome = true ∨ op.result?.isSome = true ∨ op.check?.isSome = true) := by
  have last : ∀ {l : List SigOp}, op ∈ l.getLast?.toList → op ∈ l := fun member =>
    List.mem_of_getLast? (Option.mem_toList.1 member)
  rw [Sig.trailerOps, List.append_assoc] at h
  rcases List.mem_append.1 h with flag | rest
  · exact ⟨(List.mem_filter.1 flag).1, .inl (List.mem_filter.1 flag).2⟩
  · rcases List.mem_append.1 rest with result | check
    · obtain ⟨member, holds⟩ := List.mem_filter.1 (last result)
      exact ⟨member, .inr (.inl holds)⟩
    · obtain ⟨member, holds⟩ := List.mem_filter.1 (last check)
      exact ⟨member, .inr (.inr holds)⟩

theorem entries_eq {s : Sig} {ps : List SigParam} (h : s.allParams? = some ps) : s.entries = ps := by
  rw [Sig.allParams?] at h
  rw [Sig.entries]
  split at h
  · cases h
  · exact Option.some.inj h

theorem printable_entries {s : Sig} (h : ∀ op ∈ s.ops, op.Printable) :
    ∀ p ∈ s.entries, p.Printable := by
  intro p member
  obtain ⟨ps, inside, member⟩ := List.mem_flatten.1 member
  obtain ⟨op, mem, eq⟩ := List.mem_filterMap.1 inside
  have printable := h op mem
  cases op with
  | params entries =>
    obtain rfl := Option.some.inj eq
    exact printable p member
  | _ => cases eq

/-- The operations in printed order are printable. -/
theorem printable_inOrder {s : Sig} (h : ∀ op ∈ s.ops, op.Printable) :
    ∀ op ∈ s.inOrder, op.Printable := by
  intro op member
  rw [Sig.inOrder, List.append_assoc] at member
  rcases List.mem_append.1 member with types | rest
  · rw [Sig.typeParametersOp] at types
    split at types
    · cases types
    · obtain rfl := List.mem_singleton.1 types
      intro name inside
      obtain ⟨op, mem, inside⟩ := List.mem_flatMap.1 inside
      have printable := h op mem
      cases op with
      | typeParameters names => exact printable name inside
      | _ => cases inside
  · rcases List.mem_append.1 rest with params | trailer
    · rw [Sig.paramsOp] at params
      split at params
      · cases params
      · next ps found =>
        obtain rfl := List.mem_singleton.1 params
        rw [← entries_eq found]
        exact printable_entries h
    · exact h op (mem_trailerOps trailer).1

/-- Of the operations in printed order only one has parameters. -/
theorem params?_typeParametersOp {s : Sig} {op : SigOp} (h : op ∈ s.typeParametersOp) :
    op.params? = none := by
  rw [Sig.typeParametersOp] at h
  split at h
  · cases h
  · rw [List.mem_singleton.1 h]
    rfl

theorem params?_trailerOps {s : Sig} {op : SigOp} (h : op ∈ s.trailerOps) : op.params? = none := by
  obtain ⟨-, picked⟩ := mem_trailerOps h
  cases op with
  | params entries => rcases picked with p | p | p <;> cases p
  | _ => rfl

theorem silent_inOrder {s : Sig} (h : ∀ p ∈ s.entries, p.comments = []) :
    ∀ op ∈ s.inOrder, ∀ p ∈ op.params?.getD [], p.comments = [] := by
  intro op member p inside
  rw [Sig.inOrder, List.append_assoc] at member
  rcases List.mem_append.1 member with types | rest
  · rw [params?_typeParametersOp types] at inside
    cases inside
  · rcases List.mem_append.1 rest with params | trailer
    · rw [Sig.paramsOp] at params
      split at params
      · cases params
      · next ps found =>
        obtain rfl := List.mem_singleton.1 params
        exact h p (entries_eq found ▸ inside)
    · rw [params?_trailerOps trailer] at inside
      cases inside

/-- The operations of a signature as they are printed on one line. -/
def lineItems (s : Sig) : List (List Char × SigOp) :=
  s.inOrder.map fun op => (op.text.toList, op.mapParams SigParam.written)

theorem toList_chainText (s : Sig) : s.chainText.toList = dotted ((lineItems s).map Prod.fst) := by
  rw [Sig.chainText_eq, Text.toList_join_dot, dotted, lineItems, List.map_map, List.map_map]
  rfl

theorem map_snd_lineItems (s : Sig) : (lineItems s).map Prod.snd = s.written.ops := by
  rw [lineItems, List.map_map]
  rfl

theorem readsOp_lineItems {s : Sig} (h : ∀ op ∈ s.ops, op.Printable)
    (silent : ∀ p ∈ s.entries, p.comments = []) : ∀ i ∈ lineItems s, ReadsOp i.1 i.2 := by
  intro i member
  obtain ⟨op, inside, rfl⟩ := List.mem_map.1 member
  exact readsOp_text (printable_inOrder h op inside) (silent_inOrder silent op inside)

/-- Operations without parameters are printed in the same way in every layout. -/
theorem readsOp_plain {ops : List SigOp} (h : ∀ op ∈ ops, op.Printable)
    (plain : ∀ op ∈ ops, op.params? = none) :
    ∀ i ∈ ops.map fun op => (op.text.toList, op.mapParams SigParam.written), ReadsOp i.1 i.2 := by
  intro i member
  obtain ⟨op, inside, rfl⟩ := List.mem_map.1 member
  refine readsOp_text (h op inside) ?_
  rw [plain op inside]
  exact fun p none => absurd none List.not_mem_nil

/-- The operations of a signature as they are printed in a block, where `body` is the text between
    the parentheses of the parameters. -/
def blockItems (s : Sig) (ps : List SigParam) (body : List Char) : List (List Char × SigOp) :=
  (s.typeParametersOp.map fun op => (op.text.toList, op.mapParams SigParam.written)) ++
    ("params(".toList ++ (body ++ [')']), .params (ps.map SigParam.written)) ::
      s.trailerOps.map fun op => (op.text.toList, op.mapParams SigParam.written)

theorem map_snd_blockItems {s : Sig} {ps : List SigParam} (found : s.allParams? = some ps)
    (body : List Char) : (blockItems s ps body).map Prod.snd = s.written.ops := by
  have params : s.paramsOp = [.params ps] := by rw [Sig.paramsOp, found]
  have written : (SigOp.params ps).mapParams SigParam.written =
      .params (ps.map SigParam.written) := rfl
  simp [blockItems, Sig.written, Sig.inOrder, params, written, Function.comp_def]

theorem readsOp_blockItems {s : Sig} (h : ∀ op ∈ s.ops, op.Printable) {ps : List SigParam}
    (found : s.allParams? = some ps) {body : List Char} (listed : ∀ x, ∃ y,
      Listed (ps.map (Item.of SigParam.render SigParam.comments SigParam.bare)) (body ++ ')' :: x) y ∧
        y.dropWhile Text.isBlank = ')' :: x) : ∀ i ∈ blockItems s ps body, ReadsOp i.1 i.2 := by
  have ordered := printable_inOrder h
  have entries : ∀ p ∈ ps, p.Printable := entries_eq found ▸ printable_entries h
  intro i member
  rcases List.mem_append.1 member with types | rest
  · refine readsOp_plain (fun op inside => ordered op ?_)
      (fun op inside => params?_typeParametersOp inside) i types
    exact List.mem_append_left _ (List.mem_append_left _ inside)
  · rcases List.mem_cons.1 rest with rfl | trailer
    · exact readsOp_params entries listed
    · exact readsOp_plain (fun op inside => ordered op (List.mem_append_right _ inside))
        (fun op inside => params?_trailerOps inside) i trailer

theorem dotted_texts (ops : List SigOp) :
    dotted (ops.map fun op => op.text.toList) = (Text.join "." (ops.map SigOp.text)).toList := by
  rw [Text.toList_join_dot, List.map_map]
  rfl

/-- The text of a block is that of its operations with dots between them. -/
theorem dotted_blockItems (s : Sig) (ps : List SigParam) (body : List Char) :
    dotted ((blockItems s ps body).map Prod.fst) =
      (match s.typeParametersText? with
        | some before => before ++ ".params("
        | none => "params(").toList ++ (body ++ (match s.trailerText? with
          | some after => ")." ++ after
          | none => ")").toList) := by
  have texts : (blockItems s ps body).map Prod.fst =
      (s.typeParametersOp.map fun op => op.text.toList) ++
        ("params(".toList ++ (body ++ [')'])) :: s.trailerOps.map fun op => op.text.toList := by
    simp [blockItems, Function.comp_def]
  -- From the parameters on.
  have tail : dotted (("params(".toList ++ (body ++ [')'])) ::
      s.trailerOps.map fun op => op.text.toList) = "params(".toList ++ (body ++
        (match s.trailerText? with
          | some after => ")." ++ after
          | none => ")").toList) := by
    rw [Sig.trailerText?_eq]
    by_cases none : s.trailerOps = []
    · rw [none, if_pos rfl, List.map_nil, dotted, List.intercalate_singleton]
      rfl
    · rw [if_neg none, dotted_cons _ (by simpa using none), dotted_texts]
      simp only [List.append_assoc, String.toList_append]
      rfl
  rw [texts]
  have types := s.typeParametersText?_eq
  cases before : s.typeParametersText? with
  | none =>
    rw [before] at types
    obtain none : s.typeParametersOp = [] := List.map_eq_nil_iff.1 types.symm
    rw [none, List.map_nil, List.nil_append, tail]
  | some text =>
    rw [before] at types
    obtain ⟨op, only, eq⟩ : ∃ op, s.typeParametersOp = [op] ∧ op.text = text := by
      cases ops : s.typeParametersOp with
      | nil => rw [ops] at types; cases types
      | cons op rest =>
        rw [ops] at types
        obtain ⟨same, none⟩ := List.cons_eq_cons.1 types
        rw [List.map_eq_nil_iff.1 none.symm]
        exact ⟨op, rfl, same.symm⟩
    rw [only, List.map_singleton, List.singleton_append, dotted_cons _ (by simp), tail, eq]
    simp only [String.toList_append, List.append_assoc]
    rfl

/-! ## Layouts of a signature -/

/-- A chain begins with the name of an operation, which is not `end`. -/
theorem takeWhile_dotted {text : List Char} {op : SigOp} (h : ReadsOp text op)
    (texts : List (List Char)) (stop : Stops isWordChar x) :
    (dotted (text :: texts) ++ x).takeWhile isWordChar ≠ "end".toList := by
  obtain ⟨name, args, rfl, isName, other, read⟩ := h
  have first : ∀ z, Stops isWordChar z →
      (name.toList ++ args ++ z).takeWhile isWordChar ≠ "end".toList := by
    intro z stop
    rw [List.append_assoc, (read z {} stop).1.takeWhile_append isName.1]
    exact fun same => other (String.toList_inj.1 same)
  cases texts with
  | nil =>
    rw [dotted, List.intercalate_singleton]
    exact first x stop
  | cons next texts =>
    rw [dotted_cons _ (by simp), List.append_assoc]
    exact first _ (.cons rfl)

theorem not_closer_dotted {text : List Char} {op : SigOp} (h : ReadsOp text op)
    (texts : List (List Char)) (x : List Char) :
    Stops (· = '}') (dotted (text :: texts) ++ x) := by
  obtain ⟨name, args, rfl, isName, -⟩ := h
  have first : ∀ z, Stops (· = '}') (name.toList ++ args ++ z) := by
    intro z
    rw [List.append_assoc]
    exact isName.stops (fun c word => by simpa using ne_of_isWordChar word rfl) _
  cases texts with
  | nil =>
    rw [dotted, List.intercalate_singleton]
    exact first x
  | cons next texts =>
    rw [dotted_cons _ (by simp), List.append_assoc]
    exact first _

/-- What a signature is read as, locations aside, without a comment after `do`. -/
def ReadAsSig (ops : List SigOp) (r : Sig × Option Remark) : Prop :=
  unlocatedOps r.1.ops = ops ∧ r.2 = none

theorem reads_sig_empty : Reads sig (' ' :: '{' :: '}' :: x) x (ReadAsSig []) :=
  (reads_skipSpaces_one (.cons rfl)).followedBy <| (reads_eat '{').followedBy <|
    (reads_skipSpaces_stay (.cons rfl)).followedBy <| (reads_eat '}').followedBy <|
      reads_pure ⟨rfl, rfl⟩

/-- The word `do` at the end of its line. -/
theorem reads_do : Reads (eatKeyword "do") ('d' :: 'o' :: '\n' :: x) ('\n' :: x) (· = true) :=
  reads_eatKeyword (by decide) (by decide) (.cons rfl)

theorem reads_indentation {n : Nat} (stop : Stops Text.isBlank x) :
    Reads skipBlanks (List.replicate n ' ' ++ x) x (· = ()) :=
  reads_skipBlanks_lead (fun _ member => List.eq_of_mem_replicate member) stop

theorem reads_sig_emptyBlock (n : Nat) :
    Reads sig (' ' :: 'd' :: 'o' :: '\n' ::
      (List.replicate n ' ' ++ 'e' :: 'n' :: 'd' :: '\n' :: x)) ('\n' :: x) (ReadAsSig []) := by
  refine (reads_skipSpaces_one (.cons rfl)).followedBy ?_
  refine (reads_eat_no (.cons rfl)).followedBy ?_
  refine reads_do.followedBy ?_
  refine reads_finishLine.followedBy ?_
  refine (reads_indentation (.cons (by decide))).followedBy ?_
  have ends : Reads (eatKeyword "end") ('e' :: 'n' :: 'd' :: '\n' :: x) ('\n' :: x) (· = true) :=
    reads_eatKeyword (by decide) (by decide) (.cons rfl)
  exact ends.followedBy (reads_pure ⟨rfl, rfl⟩)

theorem reads_sig_line {items : List (List Char × SigOp)} (nonempty : items ≠ [])
    (reads : ∀ i ∈ items, ReadsOp i.1 i.2) :
    Reads sig (' ' :: '{' :: ' ' :: (dotted (items.map Prod.fst) ++ ' ' :: '}' :: x)) x
      (ReadAsSig (items.map Prod.snd)) := by
  obtain ⟨i, rest, rfl⟩ := List.exists_cons_of_ne_nil nonempty
  have one := reads i List.mem_cons_self
  refine (reads_skipSpaces_one (.cons rfl)).followedBy ?_
  refine (reads_eat '{').followedBy ?_
  refine (reads_skipSpaces_one (stops_dotted one _ _).lineSpace).followedBy ?_
  refine (reads_eat_no (not_closer_dotted one _ _)).followedBy ?_
  refine (reads_sigChain_line nonempty reads).bind fun s ops => ?_
  refine (reads_skipSpaces_stay (.cons rfl)).followedBy ?_
  exact (reads_expect '}' _).followedBy (reads_pure ⟨ops, rfl⟩)

theorem reads_sig_block {items : List (List Char × SigOp)} (nonempty : items ≠ [])
    (reads : ∀ i ∈ items, ReadsOp i.1 i.2) (k n : Nat) :
    Reads sig (' ' :: 'd' :: 'o' :: '\n' :: (List.replicate k ' ' ++ (dotted (items.map Prod.fst) ++
      '\n' :: (List.replicate n ' ' ++ 'e' :: 'n' :: 'd' :: '\n' :: x)))) ('\n' :: x)
        (ReadAsSig (items.map Prod.snd)) := by
  obtain ⟨i, rest, rfl⟩ := List.exists_cons_of_ne_nil nonempty
  have one := reads i List.mem_cons_self
  refine (reads_skipSpaces_one (.cons rfl)).followedBy ?_
  refine (reads_eat_no (.cons rfl)).followedBy ?_
  refine reads_do.followedBy ?_
  refine reads_finishLine.followedBy ?_
  refine (reads_indentation (stops_dotted one _ _)).followedBy ?_
  refine (reads_eatKeyword_no (takeWhile_dotted one _ (.cons rfl))).followedBy ?_
  refine (reads_sigChain_block nonempty reads n).bind fun s ops => ?_
  refine (reads_skipBlanks_stay (.cons (by decide))).followedBy ?_
  exact (reads_end (.cons rfl)).followedBy (reads_pure ⟨ops, rfl⟩)

variable {o : PrintOptions}

theorem paint_plain (plain : o.colorize = false) (style : Style) (text : String) :
    o.paint style text = text := by
  rw [PrintOptions.paint, Style.paint, plain]
  rfl

theorem keyword_plain (plain : o.colorize = false) (word : String) : o.keyword word = word :=
  paint_plain plain .keyword word

/-- The parameters of a block are laid out as a list. -/
theorem listed_block (plain : o.colorize = false) {ps : List SigParam} (h : ∀ p ∈ ps, p.Printable)
    (k n : Nat) (x : List Char) : ∃ y,
      Listed (ps.map (Item.of SigParam.render SigParam.comments SigParam.bare))
        (lay none (Doc.atomsAll k (o.entriesDocs (ps.map fun p => (p.render, p.comments)))) ++
          '\n' :: List.replicate n ' ' ++ ')' :: x) y ∧ y.dropWhile Text.isBlank = ')' :: x := by
  have good : ∀ p ∈ ps, p.render ≠ "" ∧ ∀ line ∈ commentLines p.comments, IsCommentLine line := by
    intro p member
    refine ⟨fun empty => ?_, isCommentLine_of_printable (h p member).2.2⟩
    have text := congrArg String.toList empty
    simp [SigParam.render] at text
  have listed := listed_entries SigParam.render SigParam.comments SigParam.bare plain k n
    [.text (String.ofList (')' :: x))] ps none good
  have last : lay (some n) [.text (String.ofList (')' :: x))] =
      List.replicate n ' ' ++ ')' :: x := by
    rw [lay_some_text (by simp [String.ext_iff])]
    simp
  rw [lay_append_line, last] at listed
  exact ⟨_, by simpa using listed, dropWhile_indentation n (.cons (by decide))⟩

theorem dotted_ne_nil {text : List Char} {op : SigOp} (h : ReadsOp text op)
    (texts : List (List Char)) : dotted (text :: texts) ≠ [] := by
  obtain ⟨name, args, rfl, isName, -⟩ := h
  have first := ne_nil_of_name isName args
  cases texts with
  | nil => rwa [dotted, List.intercalate_singleton]
  | cons next texts =>
    rw [dotted_cons _ (by simp)]
    exact fun nil => first (List.append_eq_nil_iff.1 nil).1

/-- The printed form of a signature is read as the operations `ops`. -/
def ReadsDoc (o : PrintOptions) (depth n : Nat) (s : Sig) (ops : List SigOp) : Prop :=
  ∃ text, lay none ((s.doc o depth).atoms n) = "sig".toList ++ ' ' :: text ∧
    ∀ x, Reads sig (' ' :: (text ++ '\n' :: x)) ('\n' :: x) (ReadAsSig ops)

/-- A signature in which nothing is printed. -/
theorem readsDoc_empty (plain : o.colorize = false) {s : Sig} (empty : s.chainTexts = [])
    (depth n : Nat) : ReadsDoc o depth n s [] := by
  rw [ReadsDoc, Sig.doc, empty]
  by_cases fold : o.foldEmptyScopes = true
  · refine ⟨'d' :: 'o' :: '\n' :: (List.replicate n ' ' ++ ['e', 'n', 'd']), ?_, fun x => ?_⟩
    · simp [fold, Doc.atoms, Doc.atomsAll, paint_plain plain, keyword_plain plain, lay_some_text]
    · simpa using reads_sig_emptyBlock n
  · refine ⟨['{', '}'], ?_, fun x => reads_sig_empty⟩
    simp [fold, Doc.atoms, Doc.atomsAll, paint_plain plain]

/-- A signature on one line. -/
theorem readsDoc_line (plain : o.colorize = false) {s : Sig} (printed : s.chainTexts ≠ [])
    {depth : Nat} (line : s.onOneLine o depth = true)
    (reads : ∀ i ∈ lineItems s, ReadsOp i.1 i.2) (n : Nat) :
    ReadsDoc o depth n s s.written.ops := by
  have nonempty : lineItems s ≠ [] := by
    simpa [lineItems] using fun nil => printed ((s.chainTexts_eq_nil).2 nil)
  rw [ReadsDoc, Sig.doc, if_neg (by simpa using printed), if_pos line]
  refine ⟨'{' :: ' ' :: (s.chainText.toList ++ [' ', '}']), ?_, fun x => ?_⟩
  · simp [Doc.atoms, Doc.atomsAll, paint_plain plain]
  · have read := reads_sig_line (x := '\n' :: x) nonempty reads
    rw [map_snd_lineItems, ← toList_chainText] at read
    simpa using read

/-- A signature as a block. -/
theorem readsDoc_block (plain : o.colorize = false) {s : Sig} (printed : s.chainTexts ≠ [])
    {depth : Nat} (block : s.onOneLine o depth = false) {n : Nat}
    {items : List (List Char × SigOp)} (nonempty : items ≠ [])
    (reads : ∀ i ∈ items, ReadsOp i.1 i.2)
    (laid : ∀ as, lay (some (n + o.indentWidth)) ((s.blockBody o).atoms (n + o.indentWidth) ++ as) =
      List.replicate (n + o.indentWidth) ' ' ++ (dotted (items.map Prod.fst) ++ lay none as)) :
    ReadsDoc o depth n s (items.map Prod.snd) := by
  refine ⟨'d' :: 'o' :: '\n' :: (List.replicate (n + o.indentWidth) ' ' ++
    (dotted (items.map Prod.fst) ++ '\n' :: (List.replicate n ' ' ++ ['e', 'n', 'd']))), ?_, ?_⟩
  · rw [Sig.doc, if_neg (by simpa using printed), if_neg (by simp [block])]
    simp [Doc.atoms, Doc.atomsAll, paint_plain plain, keyword_plain plain, laid, lay_some_text]
  · intro x
    simpa using reads_sig_block nonempty reads (n + o.indentWidth) n

theorem silent_of_no_params {s : Sig} (h : s.allParams? = none) :
    ∀ p ∈ s.entries, p.comments = [] := by
  rw [Sig.allParams?] at h
  split at h
  · next nil =>
    rw [Sig.entries, nil]
    exact fun p none => absurd none List.not_mem_nil
  · cases h

/-- Nested lines between two texts, on a fresh line. -/
theorem lay_between {opening closing : String} (first : opening ≠ "") (last : closing ≠ "")
    (docs : List Doc) (n width : Nat) (as : List Atom) :
    lay (some n) ((Doc.concat [.text opening, .nest width (.concat docs), .line,
        .text closing]).atoms n ++ as) =
      List.replicate n ' ' ++ (opening.toList ++ (lay none (Doc.atomsAll (n + width) docs) ++
        '\n' :: List.replicate n ' ' ++ closing.toList) ++ lay none as) := by
  simp [Doc.atoms, Doc.atomsAll, lay_some_text first, lay_some_text last, lay_append_line]

/-- Every printable signature is read back from its printed form, in every layout. -/
theorem readsDoc_sig (plain : o.colorize = false) {s : Sig} (h : s.Printable) (depth n : Nat) :
    ReadsDoc o depth n s s.written.ops := by
  obtain ⟨printable, comments⟩ := h
  by_cases printed : s.chainTexts = []
  · have empty : s.written.ops = [] := by rw [Sig.written, (s.chainTexts_eq_nil).1 printed]; rfl
    rw [empty]
    exact readsDoc_empty plain printed depth n
  cases line : s.onOneLine o depth with
  | true =>
    have silent : ∀ p ∈ s.entries, p.comments = [] := by
      rcases comments with noted | silent
      · simp [Sig.onOneLine, noted] at line
      · exact silent
    exact readsDoc_line plain printed line (readsOp_lineItems printable silent) n
  | false =>
    cases found : s.allParams? with
    | none =>
      have items := readsOp_lineItems printable (silent_of_no_params found)
      have nonempty : lineItems s ≠ [] := by
        simpa [lineItems] using fun nil => printed ((s.chainTexts_eq_nil).2 nil)
      have text : s.chainText ≠ "" := by
        intro none
        obtain ⟨i, rest, eq⟩ := List.exists_cons_of_ne_nil nonempty
        have chain := toList_chainText s
        rw [none, eq] at chain
        exact dotted_ne_nil (items i (eq ▸ List.mem_cons_self)) _ chain.symm
      rw [← map_snd_lineItems]
      refine readsDoc_block plain printed line nonempty items fun as => ?_
      rw [Sig.blockBody, found, ← toList_chainText]
      exact lay_some_text text _ _
    | some ps =>
      have entries : ∀ p ∈ ps, p.Printable := entries_eq found ▸ printable_entries printable
      rw [← map_snd_blockItems found (lay none (Doc.atomsAll (n + o.indentWidth + o.indentWidth)
        (o.entriesDocs (ps.map fun p => (p.render, p.comments)))) ++
          '\n' :: List.replicate (n + o.indentWidth) ' ')]
      refine readsDoc_block plain printed line (by simp [blockItems])
        (readsOp_blockItems printable found fun x => listed_block plain entries _ _ x) fun as => ?_
      rw [dotted_blockItems, Sig.blockBody, found]
      refine lay_between ?_ ?_ _ _ _ _
      · split
        · exact fun none => absurd (String.append_eq_empty_iff.1 none).2 (by decide)
        · decide
      · split
        · exact fun none => absurd (String.append_eq_empty_iff.1 none).1 (by decide)
        · decide

end Reader

end InterfaceFile
