import InterfaceFile.Proofs.RoundTrip.ReadLists

/-!
# Parameters are read back
-/

namespace InterfaceFile

/-! ## Names -/

theorem IsName.head {s : String} (h : IsName s) :
    ∃ c cs, s.toList = c :: cs ∧ isWordChar c = true ∧ c.isDigit = false := by
  cases text : s.toList with
  | nil =>
    have := h.2
    rw [text] at this
    cases this
  | cons c cs =>
    refine ⟨c, cs, rfl, h.1 c (by rw [text]; exact List.mem_cons_self), ?_⟩
    have := h.2
    rw [text] at this
    simpa [isIdentifier] using this

/-- A name begins with a character that means nothing else. -/
theorem IsName.stops {s : String} (h : IsName s) {p : Char → Bool}
    (other : ∀ c, isWordChar c = true → p c = false) (x : List Char) : Stops p (s.toList ++ x) := by
  obtain ⟨c, cs, text, word, -⟩ := h.head
  rw [text]
  exact .cons (other c word)

theorem ne_of_isWordChar {c d : Char} (word : isWordChar c = true) (other : isWordChar d = false) :
    c ≠ d := by
  rintro rfl
  rw [word] at other
  cases other

theorem isBlank_of_isWordChar {c : Char} (word : isWordChar c = true) : Text.isBlank c = false := by
  have range : 48 ≤ c.toNat ∧ c.toNat ≤ 122 := by
    delta isWordChar Char.isAlphanum Char.isAlpha Char.isUpper Char.isLower Char.isDigit at word
    simp only [Bool.or_eq_true, Bool.and_eq_true, decide_eq_true_eq, UInt32.le_iff_toNat_le,
      ge_iff_le] at word
    have value : c.toNat = c.val.toNat := rfl
    rcases word with ((upper | lower) | digit) | rfl
    · have : 'A'.val.toNat = 65 := rfl
      have : 'Z'.val.toNat = 90 := rfl
      omega
    · have : 'a'.val.toNat = 97 := rfl
      have : 'z'.val.toNat = 122 := rfl
      omega
    · have : '0'.val.toNat = 48 := rfl
      have : '9'.val.toNat = 57 := rfl
      omega
    · decide
  simp [Text.isBlank, Text.blankRanges]
  omega

/-- The shape that is read from a printed parameter: an empty default value is not there. -/
def ParamShape.pruned : ParamShape → ParamShape
  | .keywordOptional value => if value = "" then .keyword else .keywordOptional value
  | shape => shape

def Param.pruned (p : Param) : Param :=
  { p with shape := p.shape.pruned }

theorem Param.pruned_eq {p : Param} (h : p.shape ≠ .keywordOptional "") : p.pruned = p := by
  obtain ⟨name, shape, type, comments⟩ := p
  cases shape with
  | keywordOptional value =>
    have filled : value ≠ "" := by
      rintro rfl
      exact h rfl
    rw [pruned, ParamShape.pruned, if_neg filled]
  | _ => rfl

/-- A printable parameter has no empty default value. -/
theorem Param.Printable.filled {p : Param} (h : p.Printable) : p.shape ≠ .keywordOptional "" := by
  intro empty
  have shape := h.1
  rw [empty] at shape
  exact shape.2.ne_empty rfl

/-- The method as it is read from its printed form, without empty default values. -/
def Method.pruned (m : Method) : Method :=
  { m with params := m.params.map Param.pruned }

theorem Method.pruned_eq {m : Method} (h : ∀ p ∈ m.params, p.shape ≠ .keywordOptional "") :
    m.pruned = m := by
  have params : m.params.map Param.pruned = m.params :=
    (List.map_congr_left fun p member => Param.pruned_eq (h p member)).trans (List.map_id _)
  rw [pruned, params]

/-- The parameter as it is read, without its type and its comments. -/
def Param.bare (p : Param) : Param :=
  { name := p.name, shape := p.shape.pruned }

/-- The entry without its comments. -/
def SigParam.bare (p : SigParam) : SigParam :=
  { name := p.name, type := p.type }

/-! ## Comment lines -/

theorem Text.not_mem_of_mem_split {separator : Char} {piece : List Char} :
    ∀ {cs : List Char}, piece ∈ split separator cs → separator ∉ piece
  | [], member => by
    rw [List.mem_singleton.1 member]
    exact List.not_mem_nil
  | c :: cs, member => by
    have unfolded : split separator (c :: cs) = consPiece separator c (split separator cs) := rfl
    rw [unfolded] at member
    cases pieces : split separator cs with
    | nil =>
      have count := length_split separator cs
      rw [pieces] at count
      simp at count
    | cons first rest =>
      rw [pieces, consPiece] at member
      have inner : ∀ p ∈ first :: rest, separator ∉ p := fun p inside =>
        not_mem_of_mem_split (pieces ▸ inside : p ∈ split separator cs)
      split at member
      · rcases List.mem_cons.1 member with rfl | later
        · exact List.not_mem_nil
        · exact inner piece later
      · next other =>
        rcases List.mem_cons.1 member with rfl | later
        · intro inside
          rcases List.mem_cons.1 inside with same | deeper
          · exact other same.symm
          · exact inner first List.mem_cons_self deeper
        · exact inner piece (List.mem_cons_of_mem _ later)

theorem isCommentLine_of_printable {comments : List Comment} (h : ∀ c ∈ comments, c.Printable) :
    ∀ line ∈ commentLines comments, IsCommentLine line := by
  intro line member
  obtain ⟨c, inside, printed⟩ := List.mem_flatMap.1 member
  refine ⟨?_, h c inside line printed⟩
  obtain ⟨piece, cut, rfl⟩ := List.mem_map.1 printed
  rw [String.toList_ofList]
  exact Text.not_mem_of_mem_split cut

namespace Reader

variable {x : List Char}

/-! ## What follows an entry -/

theorem EndsEntry.stops {p : Char → Bool} (h : EndsEntry x) (comma : p ',' = false)
    (close : p ')' = false) (line : p '\n' = false) (space : p ' ' = false) : Stops p x := by
  rcases h with ⟨c, rest, rfl, rfl | rfl | rfl⟩ | ⟨rest, rfl⟩
  · exact .cons comma
  · exact .cons close
  · exact .cons line
  · exact .cons space

/-- Spaces before an end and before a comment are skipped; nothing else after an entry is a space. -/
theorem EndsEntry.reads_skipSpaces (h : EndsEntry x) (gap : List Char)
    (spaces : ∀ c ∈ gap, isLineSpace c = true) :
    ∃ y, (y = x ∨ x = ' ' :: y) ∧ Reads skipSpaces (gap ++ x) y (· = ()) ∧
      ∃ c rest, y = c :: rest ∧ (c = ',' ∨ c = ')' ∨ c = '\n' ∨ c = '#') := by
  rcases h with ⟨c, rest, rfl, which⟩ | ⟨rest, rfl⟩
  · have stop : Stops isLineSpace (c :: rest) := by
      rcases which with rfl | rfl | rfl <;> exact .cons rfl
    refine ⟨c :: rest, .inl rfl, reads_skipSpaces_to (stop.dropWhile_append spaces), c, rest, rfl, ?_⟩
    rcases which with rfl | rfl | rfl <;> simp
  · have stop : Stops isLineSpace ('#' :: rest) := .cons rfl
    have longer : ∀ c ∈ gap ++ [' '], isLineSpace c = true := by
      intro c member
      rcases List.mem_append.1 member with before | last
      · exact spaces c before
      · rw [List.mem_singleton.1 last]
        rfl
    refine ⟨'#' :: rest, .inr rfl, reads_skipSpaces_to ?_, _, _, rfl, by simp⟩
    rw [List.append_cons, stop.dropWhile_append longer]

/-- Raw text is taken up to the end of its entry. -/
theorem EndsEntry.reads_rawText {s : String} (h : EndsEntry x) (clean : Clean endsEntry s) :
    ∃ y, (y = x ∨ x = ' ' :: y) ∧ Reads (rawText endsEntry) (s.toList ++ x) y (· = s) := by
  rcases h with ⟨c, rest, rfl, which⟩ | ⟨rest, rfl⟩
  · refine ⟨c :: rest, .inl rfl, reads_rawText_clean clean ?_⟩
    rcases which with rfl | rfl | rfl <;> exact .cons rfl
  · refine ⟨'#' :: rest, .inr rfl, ?_⟩
    have read : Reads (rawText endsEntry) ([] ++ (s.toList ++ [' ']) ++ '#' :: rest) ('#' :: rest)
        (· = s) := reads_rawText_spaced clean (by simp) (by simp) rfl (.cons rfl)
    simpa using read

theorem reads_collector?_no {s : String} (name : IsName s) :
    Reads collector? (s.toList ++ x) (s.toList ++ x) (· = none) := by
  have star : Stops (· = '*') (s.toList ++ x) :=
    name.stops (fun c word => by simpa using ne_of_isWordChar word rfl) x
  have amp : Stops (· = '&') (s.toList ++ x) :=
    name.stops (fun c word => by simpa using ne_of_isWordChar word rfl) x
  refine (reads_eatText_no ?_).followedBy ?_
  · rintro ⟨t, eq⟩
    rw [← eq] at star
    simp at star
  · exact (reads_eat_no star).followedBy <| (reads_eat_no amp).followedBy (reads_pure rfl)

/-- A name that may be missing. -/
theorem reads_identifier?_opt {s : String} (name : s = "" ∨ IsName s) (stop : Stops isWordChar x) :
    Reads identifier? (s.toList ++ x) x fun r => r.getD "" = s := by
  rcases name with rfl | name
  · refine (reads_word?_no fun some => ?_).mono fun _ none => ?_
    · exact absurd (stop.takeWhile_eq) some
    · rw [none]
      rfl
  · exact (reads_identifier? name stop).mono fun _ same => by rw [same]; rfl

/-! ## Method parameters -/

theorem reads_paramShape_required (ends : EndsEntry x) :
    ∃ y, (y = x ∨ x = ' ' :: y) ∧ Reads paramShape x y (· = .required) := by
  obtain ⟨y, place, spaces, c, rest, rfl, which⟩ := ends.reads_skipSpaces [] nofun
  refine ⟨c :: rest, place, ?_⟩
  refine (reads_eat_no (ends.stops rfl rfl rfl rfl)).followedBy ?_
  refine spaces.followedBy ?_
  refine (reads_eat_no ?_).followedBy (reads_pure rfl)
  rcases which with rfl | rfl | rfl | rfl <;> exact .cons rfl

/-- A keyword has no default value where nothing but spaces comes after the colon. -/
theorem reads_paramShape_keyword (ends : EndsEntry x) (gap : List Char)
    (spaces : ∀ c ∈ gap, isLineSpace c = true) :
    ∃ y, (y = x ∨ x = ' ' :: y) ∧ Reads paramShape (':' :: (gap ++ x)) y (· = .keyword) := by
  obtain ⟨y, place, skipped, c, rest, rfl, which⟩ := ends.reads_skipSpaces gap spaces
  refine ⟨c :: rest, place, ?_⟩
  refine (reads_eat ':').followedBy ?_
  refine skipped.followedBy ?_
  refine (reads_look _).followedBy ?_
  rcases which with rfl | rfl | rfl | rfl <;> exact reads_pure rfl

theorem reads_paramShape_keywordOptional {value : String} (clean : Clean endsEntry value)
    (ends : EndsEntry x) : ∃ y, (y = x ∨ x = ' ' :: y) ∧
      Reads paramShape (':' :: ' ' :: (value.toList ++ x)) y (· = .keywordOptional value) := by
  obtain ⟨y, place, read⟩ := ends.reads_rawText clean
  refine ⟨y, place, ?_⟩
  refine (reads_eat ':').followedBy ?_
  refine (reads_skipSpaces_one (clean.stops_blank x).lineSpace).followedBy ?_
  refine (reads_look _).followedBy ?_
  have goes : ((value.toList ++ x).head?.all fun c => endsEntry c || c = ')') = false := by
    have stop := clean.stops_stop x
    have inside := clean.stops_closer x
    cases text : value.toList ++ x with
    | nil => exact absurd (List.append_eq_nil_iff.1 text).1 clean.1
    | cons c cs =>
      rw [text, Stops.cons_iff] at stop inside
      simp only [isCloser, Bool.or_eq_false_iff] at inside
      simp [stop, inside]
  rw [goes]
  exact read.followedBy (reads_pure rfl)

theorem reads_paramShape_optional {value : String} (clean : Clean endsEntry value)
    (ends : EndsEntry x) : ∃ y, (y = x ∨ x = ' ' :: y) ∧
      Reads paramShape (' ' :: '=' :: ' ' :: (value.toList ++ x)) y (· = .optional value) := by
  obtain ⟨y, place, read⟩ := ends.reads_rawText clean
  refine ⟨y, place, ?_⟩
  refine (reads_eat_no (.cons rfl)).followedBy ?_
  refine (reads_skipSpaces_one (.cons rfl)).followedBy ?_
  refine (reads_eat '=').followedBy ?_
  refine (reads_skipSpaces_one (clean.stops_blank x).lineSpace).followedBy ?_
  exact (read.someText clean.ne_empty).followedBy (reads_pure rfl)

/-- A named parameter without a mark before it. -/
theorem reads_param_plain {name : String} {shape : ParamShape} {y : List Char} (h : IsName name)
    (stop : Stops isWordChar x) (read : Reads paramShape x y (· = shape)) :
    Reads param (name.toList ++ x) y (· = { name, shape }) :=
  (reads_collector?_no h).followedBy <| (reads_identifier? h stop).followedBy <|
    read.followedBy (reads_pure rfl)

/-- A parameter that collects arguments. -/
theorem reads_param_collector {name : String} {shape : ParamShape} {y : List Char}
    (h : name = "" ∨ IsName name) (stop : Stops isWordChar x)
    (mark : Reads collector? y (name.toList ++ x) (· = some shape)) :
    Reads param y x (· = { name, shape }) := by
  refine mark.followedBy ?_
  refine (reads_identifier?_opt h stop).bind fun r same => reads_pure ?_
  rw [← same]

theorem stops_star {name : String} (h : name = "" ∨ IsName name) (ends : EndsEntry x) :
    Stops (· = '*') (name.toList ++ x) := by
  rcases h with rfl | h
  · exact ends.stops rfl rfl rfl rfl
  · exact h.stops (fun c word => by simpa using ne_of_isWordChar word rfl) x

theorem reads_collector?_rest {name : String} (h : name = "" ∨ IsName name) (ends : EndsEntry x) :
    Reads collector? ('*' :: (name.toList ++ x)) (name.toList ++ x) (· = some .rest) := by
  have stop := stops_star h ends
  refine (reads_eatText_no ?_).followedBy ?_
  · rintro ⟨t, eq⟩
    rw [← (List.cons_eq_cons.1 eq).2] at stop
    simp at stop
  · exact (reads_eat '*').followedBy (reads_pure rfl)

theorem reads_collector?_keywordRest :
    Reads collector? ('*' :: '*' :: x) x (· = some .keywordRest) :=
  (reads_eatText ['*', '*']).followedBy (reads_pure rfl)

theorem reads_collector?_block : Reads collector? ('&' :: x) x (· = some .block) := by
  refine (reads_eatText_no ?_).followedBy ?_
  · rintro ⟨t, eq⟩
    cases eq
  · exact (reads_eat_no (.cons rfl)).followedBy <| (reads_eat '&').followedBy (reads_pure rfl)

/-- Method parameters, seen without locations. -/
def paramView : EntryView Param where
  kind := methodParams
  view := Param.unlocated
  note p line := { p with comments := p.comments ++ [{ text := line }] }
  view_addComment := by
    intro c p
    simp [methodParams, Param.unlocated, Comment.unlocated]

/-- What an entry must not begin with. -/
def misreadsEntry (c : Char) : Bool :=
  Text.isBlank c || c = ')' || c = '#'

theorem stops_misreadsEntry {name : String} (h : IsName name) (x : List Char) :
    Stops misreadsEntry (name.toList ++ x) := by
  refine h.stops (fun c word => ?_) x
  have close := ne_of_isWordChar (d := ')') word rfl
  have sharp := ne_of_isWordChar (d := '#') word rfl
  simp [misreadsEntry, isBlank_of_isWordChar word, close, sharp]

/-- An entry is read from `text` if what the reader gives is what the entry says. -/
theorem readsItem_of {α : Type} {v : EntryView α} {item : Item α} {a : α}
    (front : Stops misreadsEntry item.text) (nonempty : item.text ≠ []) (base : v.view a = item.base)
    (read : ∀ x, EndsEntry x → ∃ y, (y = x ∨ x = ' ' :: y) ∧
      Reads v.kind.read (item.text ++ x) y (· = a)) : ReadsItem v item := by
  refine ⟨nonempty, front, fun x ends => ?_⟩
  obtain ⟨y, place, read⟩ := read x ends
  exact ⟨y, place, read.mono fun _ same => by rw [same, base]⟩

theorem ne_nil_of_name {name : String} (h : IsName name) (x : List Char) : name.toList ++ x ≠ [] := by
  obtain ⟨c, cs, text, -⟩ := h.head
  simp [text]

/-- A plain parameter is its name and what its shape adds to it. -/
theorem readsItem_plain {p : Param} (suffix : List Char) (name : IsName p.name)
    (text : p.render.toList = p.name.toList ++ suffix)
    (stop : ∀ x, EndsEntry x → Stops isWordChar (suffix ++ x))
    (read : ∀ x, EndsEntry x → ∃ y, (y = x ∨ x = ' ' :: y) ∧
      Reads paramShape (suffix ++ x) y (· = p.shape.pruned)) :
    ReadsItem paramView (Item.of Param.render Param.comments Param.bare p) := by
  refine readsItem_of (a := p.bare) ?_ ?_ rfl fun x ends => ?_
  · show Stops misreadsEntry p.render.toList
    rw [text]
    exact stops_misreadsEntry name suffix
  · show p.render.toList ≠ []
    rw [text]
    exact ne_nil_of_name name suffix
  · obtain ⟨y, place, read⟩ := read x ends
    refine ⟨y, place, ?_⟩
    show Reads param (p.render.toList ++ x) y _
    rw [text, List.append_assoc]
    exact reads_param_plain name (stop x ends) read

/-- A parameter that collects arguments is its mark and its name. -/
theorem readsItem_collector {p : Param} (mark : List Char) (name : p.name = "" ∨ IsName p.name)
    (text : p.render.toList = mark ++ p.name.toList) (front : Stops misreadsEntry mark)
    (nonempty : mark ≠ []) (read : ∀ x, EndsEntry x →
      Reads collector? (mark ++ (p.name.toList ++ x)) (p.name.toList ++ x)
        (· = some p.shape.pruned)) :
    ReadsItem paramView (Item.of Param.render Param.comments Param.bare p) := by
  refine readsItem_of (a := p.bare) ?_ ?_ rfl fun x ends => ⟨x, .inl rfl, ?_⟩
  · show Stops misreadsEntry p.render.toList
    rw [text]
    exact front.append nonempty
  · show p.render.toList ≠ []
    simp [text, nonempty]
  · show Reads param (p.render.toList ++ x) x _
    rw [text, List.append_assoc]
    exact reads_param_collector name (ends.stops rfl rfl rfl rfl) (read x ends)

/-- Every parameter is read back from its printed form, apart from an empty default value. -/
theorem readsItem_param {p : Param} (h : p.pruned.Printable) :
    ReadsItem paramView (Item.of Param.render Param.comments Param.bare p) := by
  obtain ⟨name, shape, type, comments⟩ := p
  obtain ⟨fits, -⟩ := h
  cases shape with
  | required =>
    exact readsItem_plain [] fits (by simp [Param.render])
      (fun x ends => ends.stops rfl rfl rfl rfl) fun x ends => reads_paramShape_required ends
  | keyword =>
    exact readsItem_plain [':'] fits (by simp [Param.render])
      (fun x _ => .cons rfl) fun x ends => reads_paramShape_keyword ends [] nofun
  | optional value =>
    exact readsItem_plain (' ' :: '=' :: ' ' :: value.toList) fits.1
      (by simp [Param.render]) (fun x _ => .cons rfl)
      fun x ends => reads_paramShape_optional fits.2 ends
  | keywordOptional value =>
    by_cases empty : value = ""
    · subst empty
      exact readsItem_plain [':', ' '] fits (by simp [Param.render])
        (fun x _ => .cons rfl) fun x ends => reads_paramShape_keyword ends [' ']
          (List.forall_mem_singleton.2 rfl)
    · have same : (ParamShape.keywordOptional value).pruned = .keywordOptional value := if_neg empty
      have clean : IsName name ∧ Clean endsEntry value := by
        have shape : ParamShape.Printable name (ParamShape.keywordOptional value).pruned := fits
        rwa [same] at shape
      refine readsItem_plain (':' :: ' ' :: value.toList) clean.1 (by simp [Param.render])
        (fun x _ => .cons rfl) fun x ends => ?_
      show ∃ y, _ ∧ Reads paramShape _ y (· = (ParamShape.keywordOptional value).pruned)
      rw [same]
      exact reads_paramShape_keywordOptional clean.2 ends
  | rest =>
    exact readsItem_collector ['*'] fits (by simp [Param.render]) (.cons (by decide))
      (by simp) fun x ends => reads_collector?_rest fits ends
  | keywordRest =>
    exact readsItem_collector ['*', '*'] fits (by simp [Param.render])
      (.cons (by decide)) (by simp) fun x _ => reads_collector?_keywordRest
  | block =>
    exact readsItem_collector ['&'] fits (by simp [Param.render]) (.cons (by decide))
      (by simp) fun x _ => reads_collector?_block

theorem param_full (p : Param) :
    Item.full paramView (Item.of Param.render Param.comments Param.bare p) = p.pruned.written := by
  rw [Item.full, foldl_note paramView.note
    fun (q : Param) comments => { q with comments := q.comments ++ comments }]
  · rfl
  · simp
  · simp [paramView]

/-- The parameters of a method are read back from a list in any layout. -/
theorem reads_methodParams {ps : List Param} (h : ∀ p ∈ ps, p.pruned.Printable) {x y z : List Char}
    (listed : Listed (ps.map (Item.of Param.render Param.comments Param.bare)) x y)
    (close : y.dropWhile Text.isBlank = ')' :: z) (start : Nat) :
    Reads (list methodParams start) x z
      fun r => r.map Param.unlocated = ps.map fun p => p.pruned.written :=
  reads_entries (fun p inside => readsItem_param (h p inside)) param_full listed close

/-! ## Parameters of signatures -/

/-- Parameters of signatures, seen without locations. -/
def sigParamView : EntryView SigParam where
  kind := sigParams
  view := SigParam.unlocated
  note p line := { p with comments := p.comments ++ [{ text := line }] }
  view_addComment := by
    intro c p
    simp [sigParams, SigParam.unlocated, Comment.unlocated]

theorem reads_sigParam {name type : String} (h : IsName name) (clean : Clean endsEntry type)
    (ends : EndsEntry x) : ∃ y, (y = x ∨ x = ' ' :: y) ∧
      Reads sigParam (name.toList ++ ':' :: ' ' :: (type.toList ++ x)) y (· = { name, type }) := by
  obtain ⟨y, place, read⟩ := ends.reads_rawText clean
  refine ⟨y, place, ?_⟩
  refine (reads_identifier? h (.cons rfl)).followedBy ?_
  refine (reads_expect ':' _).followedBy ?_
  refine (reads_skipSpaces_one (clean.stops_blank x).lineSpace).followedBy ?_
  exact (read.someText clean.ne_empty).followedBy (reads_pure rfl)

theorem readsItem_sigParam {p : SigParam} (h : p.Printable) :
    ReadsItem sigParamView (Item.of SigParam.render SigParam.comments SigParam.bare p) := by
  obtain ⟨name, clean, -⟩ := h
  have text : p.render.toList = p.name.toList ++ ':' :: ' ' :: p.type.toList := by
    simp [SigParam.render]
  refine readsItem_of (a := p.bare) ?_ ?_ rfl fun x ends => ?_
  · show Stops misreadsEntry p.render.toList
    rw [text]
    exact stops_misreadsEntry name _
  · show p.render.toList ≠ []
    rw [text]
    exact ne_nil_of_name name _
  · obtain ⟨y, place, read⟩ := reads_sigParam name clean ends
    refine ⟨y, place, ?_⟩
    show Reads sigParam (p.render.toList ++ x) y _
    rw [text, List.append_assoc]
    exact read

theorem sigParam_full (p : SigParam) :
    Item.full sigParamView (Item.of SigParam.render SigParam.comments SigParam.bare p) =
      p.written := by
  rw [Item.full, foldl_note sigParamView.note
    fun (q : SigParam) comments => { q with comments := q.comments ++ comments }]
  · rfl
  · simp
  · simp [sigParamView]

/-- The parameters of a signature are read back from a list in any layout. -/
theorem reads_sigParams {ps : List SigParam} (h : ∀ p ∈ ps, p.Printable) {x y z : List Char}
    (listed : Listed (ps.map (Item.of SigParam.render SigParam.comments SigParam.bare)) x y)
    (close : y.dropWhile Text.isBlank = ')' :: z) (start : Nat) :
    Reads (list sigParams start) x z
      fun r => r.map SigParam.unlocated = ps.map SigParam.written :=
  reads_entries (fun p inside => readsItem_sigParam (h p inside)) sigParam_full listed close

end Reader

end InterfaceFile
