import InterfaceFile.Merge.Unify
import InterfaceFile.Proofs.Merge.Declarations
import Mathlib.Data.List.Nodup

/-!
# Two declarations with one key

Two declarations with one key become one in one of six ways. `Unifies` lists these ways with all that
they come to, so that nothing below looks into `unify` again. Declarations that agree become one
declaration that says what each of them says and nothing else.
-/

namespace InterfaceFile

namespace Node

/-- `merged` says what `given` says. The two are the same declaration; a scope may have the
    superclass that another declaration of the scope gives. -/
structure Covers (merged given : Node) : Prop where
  comments : ∀ c ∈ given.comments, ∃ d ∈ merged.comments, d.text = c.text
  leaf : given.scope? = none → merged.stripped = given.stripped
  scope : ∀ s, given.scope? = some s → ∃ s', merged.scope? = some s' ∧
    s'.kind.sameFlavour s.kind = true ∧
      ∀ c, s.kind = .classDef (some c) → s'.kind = .classDef (some c)

/-- `merged` says what the nodes of a list say and nothing else. -/
structure Unites (merged : Node) (given : List Node) : Prop where
  covers : ∀ n ∈ given, merged.Covers n
  decl : ∃ n ∈ given, n.decl = merged.decl
  comments : ∀ c ∈ merged.comments, ∃ n ∈ given, c ∈ n.comments

end Node

/-! ## Comments -/

theorem mem_uniteComments_left {comments more : List Comment} {c : Comment}
    (member : c ∈ comments) : c ∈ uniteComments comments more := by
  rw [uniteComments]
  induction more generalizing comments with
  | nil => exact member
  | cons d rest ih =>
    rw [List.foldl_cons]
    split
    · exact ih member
    · exact ih (List.mem_append_left _ member)

theorem text_mem_uniteComments {comments more : List Comment} {c : Comment} (member : c ∈ more) :
    ∃ d ∈ uniteComments comments more, d.text = c.text := by
  induction more generalizing comments with
  | nil => cases member
  | cons d rest ih =>
    rcases List.mem_cons.1 member with rfl | later
    · rw [uniteComments, List.foldl_cons]
      split
      · next known =>
        obtain ⟨d, inside, eq⟩ := List.any_eq_true.1 known
        exact ⟨d, mem_uniteComments_left inside, by simpa using eq⟩
      · exact ⟨c, mem_uniteComments_left (List.mem_append_right _ List.mem_cons_self), rfl⟩
    · rw [uniteComments, List.foldl_cons]
      exact ih later

theorem mem_of_mem_uniteComments {comments more : List Comment} {c : Comment}
    (member : c ∈ uniteComments comments more) : c ∈ comments ∨ c ∈ more := by
  induction more generalizing comments with
  | nil => exact .inl member
  | cons d rest ih =>
    rw [uniteComments, List.foldl_cons] at member
    split at member
    · exact (ih member).imp id (List.mem_cons_of_mem _)
    · rcases ih member with old | later
      · rcases List.mem_append.1 old with old | new
        · exact .inl old
        · exact .inr (List.mem_singleton.1 new ▸ List.mem_cons_self)
      · exact .inr (List.mem_cons_of_mem _ later)

namespace Node

@[simp]
theorem comments_unite (old new : Node) (decl : Declaration) :
    (old.unite new decl).comments = uniteComments old.comments new.comments := rfl

@[simp]
theorem decl_unite (old new : Node) (decl : Declaration) : (old.unite new decl).decl = decl := rfl

theorem stripped_congr {a b : Node} (same : a.decl = b.decl) : a.stripped = b.stripped := by
  rw [stripped, stripped, same]

@[simp]
theorem scope?_stripped (n : Node) : n.stripped.scope? = n.scope? := by
  rw [stripped, scope?, scope?]
  cases n.decl <;> rfl

theorem scope?_congr {a b : Node} (same : a.decl = b.decl) : a.scope? = b.scope? := by
  rw [scope?, scope?, same]

theorem key?_congr {a b : Node} (same : a.decl = b.decl) : a.key? = b.key? := by
  rw [key?, key?, same]

theorem sectionMarker?_congr {a b : Node} (same : a.decl = b.decl) :
    a.sectionMarker? = b.sectionMarker? := by
  rw [sectionMarker?, sectionMarker?, same]

theorem sameFlavour_refl (k : ScopeKind) : k.sameFlavour k = true := by
  cases k <;> rfl

theorem sameFlavour_symm {k k' : ScopeKind} (h : k.sameFlavour k' = true) :
    k'.sameFlavour k = true := by
  cases k <;> cases k' <;> simp_all [ScopeKind.sameFlavour]

theorem sameFlavour_trans {a b c : ScopeKind} (h : a.sameFlavour b = true)
    (k : b.sameFlavour c = true) : a.sameFlavour c = true := by
  cases a <;> cases b <;> cases c <;> simp_all [ScopeKind.sameFlavour]

end Node

/-! ## Two declarations with one key -/

/-- What two declarations with one key come to. -/
inductive Unifies (keep : Keep) (old new : Node) : Union → Prop
  /-- They have no body and say the same. -/
  | equal (leaf : new.scope? = none) (same : old.stripped = new.stripped) :
      Unifies keep old new { node := some (old.unite new old.decl) }
  /-- They have no body and do not say the same. -/
  | different (leaf : new.scope? = none) (other : old.stripped ≠ new.stripped) :
      Unifies keep old new
        { conflict := some new.mismatch
          node := match keep with
            | .left => some old
            | .right => some new
            | .neither => none }
  /-- They are scopes, and the later one adds nothing to the header. -/
  | known {left right : Scope} (ho : old.scope? = some left) (hn : new.scope? = some right)
      (flavour : left.kind.sameFlavour right.kind = true)
      (superclass : ∀ c, right.kind = .classDef (some c) → left.kind = .classDef (some c)) :
      Unifies keep old new { node := some (old.unite new old.decl), descend := true }
  /-- They are classes, and only the later one gives the superclass. -/
  | filled {left right : Scope} {c : String} (ho : old.scope? = some left)
      (hn : new.scope? = some right) (bare : left.kind = .classDef none)
      (given : right.kind = .classDef (some c)) :
      Unifies keep old new { node := some (old.unite new new.decl), descend := true }
  /-- They are scopes of two kinds. -/
  | kinds {left right : Scope} (ho : old.scope? = some left) (hn : new.scope? = some right)
      (flavour : left.kind.sameFlavour right.kind = false) :
      Unifies keep old new
        { conflict := some .scopeKind
          node := match keep with
            | .left => some old
            | .right => some (old.unite new new.decl)
            | .neither => none
          descend := decide (keep = .right) }
  /-- They are classes with two superclasses. -/
  | superclasses {left right : Scope} {a b : String} (ho : old.scope? = some left)
      (hn : new.scope? = some right) (ha : left.kind = .classDef (some a))
      (hb : right.kind = .classDef (some b)) (other : a ≠ b) :
      Unifies keep old new
        { conflict := some .superclass
          node := match keep with
            | .left => some (old.unite new old.decl)
            | .right => some (old.unite new new.decl)
            | .neither => none
          descend := decide (keep ≠ .neither) }

/-- What can stay of two declarations with one key. -/
inductive Node.Stays (old new : Node) : Node → Prop
  | earlier : Stays old new old
  | later (leaf : new.scope? = none) : Stays old new new
  | united : Stays old new (old.unite new old.decl)
  /-- Only a scope gives its declaration to what has the location and the comments of an earlier one. -/
  | unitedLater {s : Scope} (hn : new.scope? = some s) : Stays old new (old.unite new new.decl)

namespace Node

variable {keep : Keep} {old new merged : Node}

theorem unifies_unifyScopes {left right : Scope} (ho : old.scope? = some left)
    (hn : new.scope? = some right) : Unifies keep old new (unifyScopes keep old new left right) := by
  unfold unifyScopes
  cases flavour : left.kind.sameFlavour right.kind with
  | false =>
    have outcome : Unifies keep old new _ := .kinds ho hn flavour
    cases keep <;> exact outcome
  | true =>
    rw [Bool.not_true, if_neg (by simp)]
    split
    · next bare given => exact .filled ho hn bare given
    · next a b ha hb =>
      by_cases same : a = b
      · rw [if_pos same]
        apply Unifies.known ho hn flavour
        intro c hc
        rw [ha, ← hc, hb, same]
      · rw [if_neg same]
        have outcome : Unifies keep old new _ := .superclasses ho hn ha hb same
        cases keep <;> exact outcome
    · next notFilled notBoth =>
      apply Unifies.known ho hn flavour
      intro c hc
      -- A scope of the same kind as a class is a class, and the two cases above are all that give
      -- it a superclass of its own.
      cases hl : left.kind with
      | classDef a =>
        cases a with
        | none => exact absurd hc (notFilled c hl)
        | some a => exact absurd hc (notBoth a c hl)
      | _ => simp [hl, hc, ScopeKind.sameFlavour] at flavour

theorem key?_of_isScope {n : Node} (scope : n.isScope = true) : ∃ s, n.key? = some (.scope s) := by
  obtain ⟨s, hs⟩ := Option.isSome_iff_exists.1 scope
  exact ⟨s.name, key?_eq_scope.2 ⟨s, hs, rfl⟩⟩

theorem isScope_of_key {n : Node} {s : String} (named : n.key? = some (.scope s)) :
    n.isScope = true := by
  obtain ⟨scope, hs, -⟩ := key?_eq_scope.1 named
  exact Option.isSome_iff_exists.2 ⟨scope, hs⟩

/-- A key tells scopes from other declarations. -/
theorem isScope_congr (same : old.key? = new.key?) : old.isScope = new.isScope := by
  have scopes : ∀ a b : Node, a.key? = b.key? → a.isScope = true → b.isScope = true := by
    intro a b key scope
    obtain ⟨s, named⟩ := key?_of_isScope scope
    exact isScope_of_key (key.symm.trans named)
  rw [Bool.eq_iff_iff]
  exact ⟨scopes old new same, scopes new old same.symm⟩

theorem unifies_unify (keep : Keep) (same : old.key? = new.key?) :
    Unifies keep old new (old.unify keep new) := by
  have scopes := isScope_congr same
  cases hn : new.scope? with
  | some right =>
    have opens : old.isScope = true := by rw [scopes, isScope, hn]; rfl
    obtain ⟨left, ho⟩ := Option.isSome_iff_exists.1 opens
    have eq : old.unify keep new = unifyScopes keep old new left right := by
      rw [unify, scope?_eq_some.1 ho, scope?_eq_some.1 hn]
    rw [eq]
    exact unifies_unifyScopes ho hn
  | none =>
    have eq : old.unify keep new = unifyLeaves keep old new := by
      rw [unify]
      split
      · next h => rw [scope?_eq_some.2 h] at hn; cases hn
      · rfl
    rw [eq]
    unfold unifyLeaves
    by_cases equal : old.stripped = new.stripped
    · rw [if_pos equal]
      exact .equal hn equal
    · rw [if_neg equal]
      exact .different hn equal

/-- What has the key of a declaration without a body has no body. -/
theorem scope?_eq_none_of_key (same : old.key? = new.key?) (leaf : new.scope? = none) :
    old.scope? = none := by
  have scopes := isScope_congr same
  rw [isScope, isScope, leaf] at scopes
  exact Option.not_isSome_iff_eq_none.1 (by simp [scopes])

theorem stays_unify (same : old.key? = new.key?) (stays : (old.unify keep new).node = some merged) :
    Stays old new merged := by
  have outcome := unifies_unify keep same
  generalize old.unify keep new = union at outcome stays
  cases outcome with
  | equal | known =>
    cases stays
    exact .united
  | different leaf =>
    cases keep with
    | neither => cases stays
    | left =>
      cases stays
      exact .earlier
    | right =>
      cases stays
      exact .later leaf
  | filled _ hn =>
    cases stays
    exact .unitedLater hn
  | kinds _ hn =>
    cases keep with
    | neither => cases stays
    | left =>
      cases stays
      exact .earlier
    | right =>
      cases stays
      exact .unitedLater hn
  | superclasses _ hn =>
    cases keep with
    | neither => cases stays
    | left =>
      cases stays
      exact .united
    | right =>
      cases stays
      exact .unitedLater hn

/-- What stays declares what one of the two declares. -/
theorem Stays.decl (h : Stays old new merged) : merged.decl = old.decl ∨ merged.decl = new.decl := by
  cases h with
  | earlier | united => exact .inl rfl
  | later | unitedLater => exact .inr rfl

/-- What stays has the key of the two. -/
theorem key?_unify (same : old.key? = new.key?) (stays : (old.unify keep new).node = some merged) :
    merged.key? = old.key? := by
  rcases (stays_unify same stays).decl with decl | decl
  · exact key?_congr decl
  · exact (key?_congr decl).trans same.symm

/-- Only scopes are entered. -/
theorem isScope_of_descend (same : old.key? = new.key?)
    (descend : (old.unify keep new).descend = true) : new.isScope = true := by
  have outcome := unifies_unify keep same
  generalize old.unify keep new = union at outcome descend
  cases outcome with
  | equal | different => cases descend
  | known _ hn | filled _ hn | kinds _ hn | superclasses _ hn => rw [isScope, hn]; rfl

/-- Nothing is merged into a declaration without a body. -/
theorem descend_of_leaf (same : old.key? = new.key?) (leaf : old.isScope = false) :
    (old.unify keep new).descend = false := by
  rw [Bool.eq_false_iff]
  intro descend
  have scope := isScope_of_descend same descend
  rw [← isScope_congr same, leaf] at scope
  cases scope

/-- Both go only if the policy keeps neither. -/
theorem eq_neither_of_unify (same : old.key? = new.key?) (none : (old.unify keep new).node = none) :
    keep = .neither := by
  have outcome := unifies_unify keep same
  generalize old.unify keep new = union at outcome none
  cases outcome <;> cases keep <;> simp at none ⊢

/-- If the policy keeps neither, then what stays was not in conflict. -/
theorem conflict_unify_neither (same : old.key? = new.key?)
    (stays : (old.unify .neither new).node = some merged) :
    (old.unify .neither new).conflict = none := by
  have outcome := unifies_unify .neither same
  generalize old.unify .neither new = union at outcome stays
  cases outcome <;> simp at stays ⊢

/-! ## What is covered -/

theorem Covers.refl (n : Node) : n.Covers n where
  comments := fun c member => ⟨c, member, rfl⟩
  leaf := fun _ => rfl
  scope := fun s hs => ⟨s, hs, sameFlavour_refl _, fun _ h => h⟩

theorem unites_singleton (n : Node) : n.Unites [n] where
  covers := fun _ member => List.mem_singleton.1 member ▸ .refl n
  decl := ⟨n, List.mem_cons_self, rfl⟩
  comments := fun _ member => ⟨n, List.mem_cons_self, member⟩

/-- A node with the declaration and the comments of `old` at least covers what `old` covers. -/
theorem Covers.mono {merged given : Node} (h : old.Covers given) (decl : merged.decl = old.decl)
    (comments : old.comments ⊆ merged.comments) : merged.Covers given where
  comments := fun c member => by
    obtain ⟨d, inside, eq⟩ := h.comments c member
    exact ⟨d, comments inside, eq⟩
  leaf := fun leaf => (stripped_congr decl).trans (h.leaf leaf)
  scope := fun s hs => by
    rw [scope?_congr decl]
    exact h.scope s hs

/-- The declaration of the earlier one covers what it covered. -/
theorem Covers.unite_old {n : Node} (h : old.Covers n) : (old.unite new old.decl).Covers n :=
  h.mono rfl fun _ member => mem_uniteComments_left member

/-- A class without a superclass covers only what gives none, so the header with a superclass covers
    that, too. -/
theorem Covers.fill {n : Node} {left right : Scope} {c : String} (h : old.Covers n)
    (ho : old.scope? = some left) (hn : new.scope? = some right) (bare : left.kind = .classDef none)
    (given : right.kind = .classDef (some c)) : (old.unite new new.decl).Covers n := by
  refine ⟨fun c member => ?_, fun leaf => ?_, fun s hs => ?_⟩
  · obtain ⟨d, inOld, eq⟩ := h.comments c member
    exact ⟨d, mem_uniteComments_left inOld, eq⟩
  · have none := congrArg scope? (h.leaf leaf)
    rw [scope?_stripped, scope?_stripped, ho, leaf] at none
    cases none
  · obtain ⟨s', hs', flavours, keeps⟩ := h.scope s hs
    obtain rfl : left = s' := Option.some.inj (ho.symm.trans hs')
    refine ⟨right, (scope?_congr rfl).trans hn, ?_, fun c hc => ?_⟩
    · have classes : right.kind.sameFlavour left.kind = true := by
        rw [given, bare]
        rfl
      exact sameFlavour_trans classes flavours
    · rw [keeps c hc] at bare
      cases bare

/-- Of a later scope only the header has to be covered. -/
theorem covers_new_of_scope {s right : Scope} {d : Declaration} (hn : new.scope? = some right)
    (hs : (old.unite new d).scope? = some s) (flavour : s.kind.sameFlavour right.kind = true)
    (superclass : ∀ c, right.kind = .classDef (some c) → s.kind = .classDef (some c)) :
    (old.unite new d).Covers new := by
  refine ⟨fun _ member => text_mem_uniteComments member, fun leaf => ?_, fun s' hs' => ?_⟩
  · rw [hn] at leaf
    cases leaf
  · obtain rfl : right = s' := Option.some.inj (hn.symm.trans hs')
    exact ⟨s, hs, flavour, superclass⟩

/-- Comments come from the two, so a declaration of one of them that covers all unites all. -/
theorem Unites.unite {given : List Node} {d : Declaration} (h : old.Unites given)
    (decl : ∃ n ∈ given ++ [new], n.decl = d) (earlier : ∀ n ∈ given, (old.unite new d).Covers n)
    (last : (old.unite new d).Covers new) : (old.unite new d).Unites (given ++ [new]) where
  covers := by
    intro n member
    rcases List.mem_append.1 member with inside | new
    · exact earlier n inside
    · exact List.mem_singleton.1 new ▸ last
  decl := decl
  comments := by
    intro c member
    rcases mem_of_mem_uniteComments member with left | right
    · obtain ⟨n, inside, mem⟩ := h.comments c left
      exact ⟨n, List.mem_append_left _ inside, mem⟩
    · exact ⟨new, by simp, right⟩

theorem Unites.unite_old {given : List Node} (h : old.Unites given)
    (last : (old.unite new old.decl).Covers new) :
    (old.unite new old.decl).Unites (given ++ [new]) := by
  obtain ⟨n, inside, eq⟩ := h.decl
  exact h.unite ⟨n, List.mem_append_left _ inside, eq⟩ (fun n given => (h.covers n given).unite_old)
    last

/-- A declaration that meets an earlier one and agrees with it is made part of it. -/
theorem Unites.unify {given : List Node} (h : old.Unites given) (same : old.key? = new.key?)
    (agree : (old.unify keep new).conflict = none) :
    ∃ merged, (old.unify keep new).node = some merged ∧ merged.key? = old.key? ∧
      (old.unify keep new).descend = new.isScope ∧ merged.Unites (given ++ [new]) := by
  have outcome := unifies_unify keep same
  generalize old.unify keep new = union at outcome agree
  cases outcome with
  | different | kinds | superclasses => cases agree
  | equal leaf equal =>
    refine ⟨_, rfl, key?_congr rfl, by rw [isScope, leaf]; rfl, h.unite_old ?_⟩
    exact ⟨fun _ member => text_mem_uniteComments member, fun _ => equal,
      fun s hs => by rw [leaf] at hs; cases hs⟩
  | known ho hn flavour superclass =>
    refine ⟨_, rfl, key?_congr rfl, by rw [isScope, hn]; rfl, h.unite_old ?_⟩
    exact covers_new_of_scope hn ((scope?_congr rfl).trans ho) flavour superclass
  | filled ho hn bare superclass =>
    refine ⟨_, rfl, (key?_congr rfl).trans same.symm, by rw [isScope, hn]; rfl,
      h.unite ⟨new, by simp, rfl⟩ (fun n given => (h.covers n given).fill ho hn bare superclass) ?_⟩
    exact covers_new_of_scope hn ((scope?_congr rfl).trans hn) (sameFlavour_refl _) fun _ given => given

end Node

end InterfaceFile
