import InterfaceFile.Proofs.Merge.Merged

/-!
# What stays when more is merged

If the earlier of two declarations stays, then a merge only goes on from what it has: nothing moves,
nothing goes and nothing is said differently. New declarations come last in their scopes, a class
without a superclass may get one, and comments are added after those that are there.
-/

namespace InterfaceFile

/-- `n'` is the declaration `n` in the same place, perhaps with a superclass and with more
    comments. -/
structure Node.StaysIn (n n' : Node) : Prop where
  key : n'.key? = n.key?
  loc : n'.loc = n.loc
  leaf : n.scope? = none → n'.stripped = n.stripped
  scope : ∀ s, n.scope? = some s → ∃ s', n'.scope? = some s' ∧
    s'.kind.sameFlavour s.kind = true ∧
      ∀ c, s.kind = .classDef (some c) → s'.kind = .classDef (some c)
  comments : n.comments <+: n'.comments

/-- The statements of one body stay in another: they are its first ones, in the same order, and what
    is inside them stays in the same way. -/
inductive Outline.StayIn : List Outline → List Outline → Prop
  /-- Whatever else there is comes after them. -/
  | done (more : List Outline) : StayIn [] more
  | next {node node' : Node} {body body' rest rest' : List Outline} (same : node.StaysIn node')
      (inside : StayIn body body') (later : StayIn rest rest') :
      StayIn (.mk node body :: rest) (.mk node' body' :: rest')

namespace Node

variable {a b c old new merged : Node}

theorem StaysIn.of_decl (decl : b.decl = a.decl) (loc : b.loc = a.loc)
    (comments : a.comments <+: b.comments) : a.StaysIn b where
  key := key?_congr decl
  loc := loc
  leaf := fun _ => stripped_congr decl
  scope := fun s hs => ⟨s, (scope?_congr decl).trans hs, sameFlavour_refl _, fun _ h => h⟩
  comments := comments

theorem StaysIn.refl (n : Node) : n.StaysIn n :=
  .of_decl rfl rfl List.prefix_rfl

theorem StaysIn.trans (h : a.StaysIn b) (k : b.StaysIn c) : a.StaysIn c where
  key := k.key.trans h.key
  loc := k.loc.trans h.loc
  leaf := by
    intro leaf
    have same := h.leaf leaf
    have none : b.scope? = none := by rw [← scope?_stripped, same, scope?_stripped, leaf]
    exact (k.leaf none).trans same
  scope := by
    intro s hs
    obtain ⟨s', hs', flavour, keeps⟩ := h.scope s hs
    obtain ⟨s'', hs'', flavour', keeps'⟩ := k.scope s' hs'
    exact ⟨s'', hs'', sameFlavour_trans flavour' flavour, fun c hc => keeps' c (keeps c hc)⟩
  comments := h.comments.trans k.comments

theorem prefix_uniteComments (comments more : List Comment) :
    comments <+: uniteComments comments more := by
  rw [uniteComments]
  induction more generalizing comments with
  | nil => exact List.prefix_rfl
  | cons c rest ih =>
    rw [List.foldl_cons]
    split
    · exact ih comments
    · exact (List.prefix_append comments [c]).trans (ih _)

theorem staysIn_unite : old.StaysIn (old.unite new old.decl) :=
  .of_decl rfl rfl (prefix_uniteComments _ _)

/-- If the earlier declaration is kept, then it stays in what becomes of the two. -/
theorem staysIn_unify (same : old.key? = new.key?)
    (stays : (old.unify .left new).node = some merged) : old.StaysIn merged := by
  have outcome := unifies_unify .left same
  generalize old.unify .left new = union at outcome stays
  cases outcome with
  | equal | known | superclasses =>
    obtain rfl := Option.some.inj stays
    exact staysIn_unite
  | different | kinds =>
    obtain rfl := Option.some.inj stays
    exact .refl old
  | @filled left right c ho hn bare given =>
    obtain rfl := Option.some.inj stays
    refine ⟨?_, rfl, ?_, ?_, prefix_uniteComments _ _⟩
    · exact (key?_congr rfl).trans same.symm
    · intro leaf
      rw [ho] at leaf
      cases leaf
    · intro s hs
      obtain rfl : left = s := Option.some.inj (ho.symm.trans hs)
      refine ⟨right, (scope?_congr rfl).trans hn, by rw [bare, given]; rfl, ?_⟩
      intro c hc
      rw [bare] at hc
      cases hc

end Node

namespace Outline

theorem StayIn.refl : ∀ os : List Outline, StayIn os os
  | [] => .done []
  | .mk node body :: rest => .next (.refl node) (refl body) (refl rest)

theorem StayIn.trans {os ps qs : List Outline} (h : StayIn os ps) (k : StayIn ps qs) :
    StayIn os qs := by
  induction h generalizing qs with
  | done => exact .done qs
  | next same inside later ihInside ihLater =>
    cases k with
    | next same' inside' later' =>
      exact .next (same.trans same') (ihInside inside') (ihLater later')

/-- Statements before those that stay can be left as they are. -/
theorem StayIn.prepend (before : List Outline) {os ps : List Outline} (h : StayIn os ps) :
    StayIn (before ++ os) (before ++ ps) := by
  induction before with
  | nil => exact h
  | cons first rest ih =>
    obtain ⟨node, body⟩ := first
    exact .next (.refl node) (.refl body) ih

theorem StayIn.append (os more : List Outline) : StayIn os (os ++ more) := by
  have step := StayIn.prepend os (.done more)
  rwa [List.append_nil] at step

end Outline

namespace Merging

/-- Whatever is merged, what was there stays. -/
def Extending (run : String → Merging → Merging) : Prop :=
  ∀ name (m : Merging), m.Numbered →
    Outline.StayIn (Entry.outlines m.entries) (Entry.outlines (run name m).entries)

/-- A step leaves what was there if the statements inside a declaration are merged in that way. -/
theorem stayIn_step {name : String} {node : Node} {inside : String → Merging → Merging}
    {m result : Merging} (numbered : m.Numbered) (inner : Extending inside)
    (step : Step .left name node inside m result) :
    Outline.StayIn (Entry.outlines m.entries) (Entry.outlines result.entries) := by
  cases step with
  | add fresh run =>
    rw [Entry.outlines_append]
    exact .append _ _
  | skip found dropped => exact .refl _
  | drop found stays none => cases Node.eq_neither_of_unify found.key none
  | @update before after e merged more found stays some run =>
    have deeper : Outline.StayIn (Entry.outlines e.body) (Entry.outlines more.entries) := by
      rw [run, enter]
      split
      · exact inner _ _ (numbered.inside _ found.mem)
      · exact .refl _
    rw [found.split, Entry.outlines_split stays, Entry.outlines_split rfl]
    apply Outline.StayIn.prepend
    exact .next (Node.staysIn_unify found.key some) deeper (.refl _)

theorem extending_mergeInto (trees : List Tree) : Extending (Tree.mergeInto .left trees) := by
  apply Tree.mergeInto_induction (Q := fun run _ => Extending run)
  · exact fun name m numbered => .refl _
  · intro f g _ _ grows first second name m numbered
    exact (first name m numbered).trans (second name _ ((grows name m numbered).numbered numbered))
  · intro node inside _ keyed _ _ inner name m numbered
    exact stayIn_step numbered inner (step_meet .left name inside numbered keyed)

end Merging

/-- If the earlier declaration stays, then to merge more trees only extends the result. In every
    scope the declarations are the first ones of the larger result, with the same keys in the same
    order. Each says the same at the same location, but for a superclass where there was none and for
    more comments after the others. The conflicts are the first ones, too. -/
theorem keep_left_only_extends (ts us : List Tree) :
    let smaller := Tree.merge .left ts
    let larger := Tree.merge .left (ts ++ us)
    Outline.StayIn (smaller.1.outline Tree.root).body (larger.1.outline Tree.root).body ∧
      smaller.2 <+: larger.2 := by
  intro smaller larger
  constructor
  · rw [Tree.outline_merge, Tree.outline_merge, Tree.mergeOnto_append]
    exact Merging.extending_mergeInto us "" _ (Tree.numbered_mergeOnto .left ts)
  · rw [Tree.conflicts_merge, Tree.conflicts_merge, Tree.mergeOnto_append]
    have more := (Merging.gathering_mergeInto .left us).reporting "" _
      (Tree.numbered_mergeOnto .left ts)
    exact more

end InterfaceFile
