import InterfaceFile.Proofs.Notes.Owned

/-!
# Who gets a signature

The statements of a tree, as they are noted, are a row of blocks: the signatures of a declaration and
then the declaration itself. So a signature that has been read goes to the next method or attribute,
and only comments, empty lines and other signatures come before that one. With what a file accounts
for at its end this says that nothing that is read is lost.
-/

namespace InterfaceFile

/-! ## Blocks of signatures -/

namespace Outline

/-- The nodes of a list that can have signatures. -/
def owners (nodes : List Node) : List Node :=
  nodes.filter fun n => n.decl.isSignable

end Outline

namespace Note

/-- The signature that was read. -/
@[simp]
def sig? : Note → Option Sig
  | sig s => some s
  | _ => none

/-- What was read is a method or an attribute. -/
def isOwner : Note → Bool
  | leaf d => d.isSignable
  | _ => false

/-- What may stand between a signature and its declaration. -/
def passes : Note → Bool
  | comment _ | blank | sig _ => true
  | _ => false

/-- How the signatures that have been read are shared out. The declaration that is read next after a
    signature is a method or an attribute, and only comments, empty lines and signatures come before
    it. It is the owner with the same place among the owners as it has among the methods and
    attributes that are read. This owner has the signatures since the owner before it, in order. -/
def SharedOut (notes : List Note) (owners : List Node) : Prop :=
  ∀ before s after, notes = before ++ .sig s :: after →
    ∃ between rest earlier owner later own,
      after = between ++ .leaf owner.decl.unsigned :: rest ∧ (∀ n ∈ between, n.passes = true) ∧
      owners = earlier ++ owner :: later ∧ earlier.length = before.countP Note.isOwner ∧
      owner.decl.sigs = own ++ s :: between.filterMap Note.sig? ∧
      before.filterMap Note.sig? = earlier.flatMap (fun n => n.decl.sigs) ++ own

/-- The notes are a row of blocks, one for each owner: its signatures and then itself. Anything else
    but signatures stands between the blocks. -/
inductive Allots : List Note → List Node → Prop
  | nil : Allots [] []
  | pass {n : Note} {notes : List Note} {owners : List Node} (silent : n.sig? = none)
      (other : n.isOwner = false) (rest : Allots notes owners) : Allots (n :: notes) owners
  | owner {notes : List Note} {owners : List Node} (o : Node) (signable : o.decl.isSignable = true)
      (rest : Allots notes owners) :
      Allots (o.decl.sigs.map Note.sig ++ .leaf o.decl.unsigned :: notes) (o :: owners)

@[simp]
theorem sig?_comp_sig : sig? ∘ sig = some := rfl

theorem isOwner_unsigned (d : Declaration) : (leaf d.unsigned).isOwner = d.isSignable := by
  cases d <;> rfl

theorem countP_isOwner_sigs (sigs : List Sig) : (sigs.map sig).countP isOwner = 0 := by
  rw [List.countP_eq_zero]
  intro n member
  obtain ⟨s, -, rfl⟩ := List.mem_map.1 member
  exact nofun

/-- What is no statement may stand anywhere. -/
theorem passes_of_not_isStatement {n : Note} (h : n.isStatement = false) : n.passes = true := by
  cases n with
  | comment c => rfl
  | blank => rfl
  | _ => cases h

theorem countP_isOwner_filter (notes : List Note) :
    (notes.filter isStatement).countP isOwner = notes.countP isOwner := by
  rw [List.countP_filter]
  refine List.countP_congr fun n _ => ?_
  cases n <;> simp [isOwner]

theorem filterMap_sig?_filter (notes : List Note) :
    (notes.filter isStatement).filterMap sig? = notes.filterMap sig? := by
  rw [List.filterMap_filter]
  refine List.filterMap_congr fun n _ => ?_
  cases n <;> rfl

namespace Allots

variable {notes notes' : List Note} {owners owners' : List Node}

theorem append (h : Allots notes owners) (h' : Allots notes' owners') :
    Allots (notes ++ notes') (owners ++ owners') := by
  induction h with
  | nil => exact h'
  | pass silent other _ ih => exact .pass silent other ih
  | owner o signable _ ih =>
    rw [List.append_assoc]
    exact .owner o signable ih

/-- The owners have all signatures, each once. -/
theorem sigs (h : Allots notes owners) :
    owners.flatMap (fun n => n.decl.sigs) = notes.filterMap sig? := by
  induction h with
  | nil => rfl
  | pass silent other _ ih => rw [ih, List.filterMap_cons_none silent]
  | owner o signable _ ih => simp [List.filterMap_cons, ih]

/-- The block in which a signature stands. -/
theorem block (h : Allots notes owners) {before after : List Note} {s : Sig}
    (split : notes = before ++ .sig s :: after) :
    ∃ later rest earlier owner others own,
      after = later.map sig ++ .leaf owner.decl.unsigned :: rest ∧
      owners = earlier ++ owner :: others ∧ earlier.length = before.countP isOwner ∧
      owner.decl.sigs = own ++ s :: later ∧
      before.filterMap sig? = earlier.flatMap (fun n => n.decl.sigs) ++ own := by
  induction h generalizing before with
  | nil => simp at split
  | pass silent other _ ih =>
    cases before with
    | nil =>
      obtain ⟨rfl, rfl⟩ := List.cons.inj split
      cases silent
    | cons n before =>
      obtain ⟨rfl, inner⟩ := List.cons.inj split
      obtain ⟨later, rest, earlier, owner, others, own, next, place, count, sigs, sum⟩ := ih inner
      refine ⟨later, rest, earlier, owner, others, own, next, place, ?_, sigs, ?_⟩
      · rw [List.countP_cons_of_neg (by rw [other]; exact nofun), count]
      · rw [List.filterMap_cons_none silent, sum]
  | @owner notes owners o signable _ ih =>
    rcases List.append_eq_append_iff.1 split with ⟨passed, rfl, tail⟩ | ⟨left, mine, tail⟩
    · -- The signature comes after the block.
      cases passed with
      | nil => cases (List.cons.inj tail).1
      | cons n passed =>
        obtain ⟨rfl, inner⟩ := List.cons.inj tail
        obtain ⟨later, rest, earlier, owner, others, own, next, place, count, sigs, sum⟩ := ih inner
        refine ⟨later, rest, o :: earlier, owner, others, own, next, ?_, ?_, sigs, ?_⟩
        · rw [place, List.cons_append]
        · rw [List.countP_append, countP_isOwner_sigs, List.countP_cons_of_pos, ← count,
            List.length_cons, Nat.zero_add]
          rw [isOwner_unsigned, signable]
        · simp [List.filterMap_cons, sum]
    · -- The signature is in the block.
      cases left with
      | nil => cases (List.cons.inj tail).1
      | cons n left =>
        obtain ⟨rfl, rfl⟩ := List.cons.inj tail
        obtain ⟨own, _, all, rfl, front⟩ := List.map_eq_append_iff.1 mine
        obtain ⟨_, later, rfl, same, rfl⟩ := List.map_eq_cons_iff.1 front
        cases same
        refine ⟨later, notes, [], o, owners, own, rfl, rfl, ?_, all, ?_⟩
        · rw [countP_isOwner_sigs, List.length_nil]
        · simp

end Allots

/-- Comments and empty lines do not matter for who gets a signature. -/
theorem sharedOut_of_filter {notes : List Note} {owners : List Node}
    (h : Allots (notes.filter isStatement) owners) : SharedOut notes owners := by
  intro before s after split
  have kept : notes.filter isStatement =
      before.filter isStatement ++ .sig s :: after.filter isStatement := by
    rw [split, List.filter_append, List.filter_cons_of_pos rfl]
  obtain ⟨later, rest, earlier, owner, others, own, next, place, count, sigs, sum⟩ := h.block kept
  obtain ⟨between, rest, rfl, waited, tail⟩ := List.filter_eq_append_iff.1 next
  obtain ⟨quiet, rest, rfl, silent, -, -⟩ := List.filter_eq_cons_iff.1 tail
  have same : (between ++ quiet).filter isStatement = later.map sig := by
    rw [List.filter_append, waited, List.filter_eq_nil_iff.2 silent, List.append_nil]
  refine ⟨between ++ quiet, rest, earlier, owner, others, own, ?_, ?_, place, ?_, ?_, ?_⟩
  · rw [List.append_assoc]
  · intro n member
    cases statement : n.isStatement with
    | false => exact passes_of_not_isStatement statement
    | true =>
      have waits : n ∈ later.map sig := same ▸ List.mem_filter.2 ⟨member, statement⟩
      obtain ⟨s, -, rfl⟩ := List.mem_map.1 waits
      rfl
  · rw [count, countP_isOwner_filter]
  · rw [sigs, ← filterMap_sig?_filter, same]
    simp
  · rw [← filterMap_sig?_filter, sum]

end Note

namespace Outline

variable {node : Node} {nodes : List Node}

theorem owners_cons_of_signable (h : node.decl.isSignable = true) :
    owners (node :: nodes) = node :: owners nodes :=
  List.filter_cons_of_pos h

theorem owners_cons_of_not_signable (h : node.decl.isSignable = false) :
    owners (node :: nodes) = owners nodes :=
  List.filter_cons_of_neg (by rw [h]; exact nofun)

mutual

theorem allots_notes : ∀ o : Outline, Note.Allots o.notes (owners o.nodes)
  | mk node body => by
    have inside := allots_notesAll body
    rw [nodes]
    cases signable : node.decl.isSignable with
    | true =>
      have leaf : node.decl.isLeaf = true := Declaration.isLeaf_of_isSignable signable
      rw [owners_cons_of_signable signable, notes_leaf leaf]
      exact .owner node signable inside
    | false =>
      rw [owners_cons_of_not_signable signable, notes]
      cases h : node.decl with
      | scope s =>
        have ends := inside.append (.pass (n := .closes) rfl rfl .nil)
        rw [List.append_nil] at ends
        exact .pass rfl rfl ends
      | blank => exact inside
      | const c => exact .pass rfl rfl inside
      | call c => exact .pass rfl rfl inside
      | method m => simp [h, Declaration.isSignable] at signable
      | attr a => simp [h, Declaration.isSignable] at signable

theorem allots_notesAll : ∀ os : List Outline, Note.Allots (notesAll os) (owners (nodesAll os))
  | [] => by
    rw [notesAll_nil]
    exact .nil
  | o :: rest => by
    rw [notesAll, nodesAll, owners, List.filter_append]
    exact (allots_notes o).append (allots_notesAll rest)

end

end Outline

/-! ## Whole files -/

/-- The tree owns what has been noted. -/
structure Tree.Owns (t : Tree) (notes : List Note) : Prop where
  /-- All nodes are inside the root, numbered in order. -/
  nodes : t.slots.toList.map Slot.node = (t.outline root).nodes
  /-- The comments that have been read are those of the nodes, of the parameters of methods and of the
      parameters of signatures. -/
  comments : (notes.filterMap Note.comment?).Perm ((t.outline root).nodes.flatMap Node.ownedComments)
  /-- The statements that have been read are those of the tree in order, scope by scope, each after
      its signatures. -/
  statements : notes.filter Note.isStatement = Outline.notesAll (t.outline root).body
  /-- The signatures that have been read are those of the methods and attributes, in order. -/
  sigs : (Outline.owners (t.outline root).nodes).flatMap (fun n => n.decl.sigs) =
    notes.filterMap Note.sig?
  /-- A signature goes to the next method or attribute, in the same scope. -/
  sharedOut : Note.SharedOut notes (Outline.owners (t.outline root).nodes)

/-- No comment and no signature is lost. Whenever a text is read, the tree owns the comments, the
    signatures and the other statements that have been read on the way; the line that gives the level
    of the file is not a comment. -/
theorem reader_loses_no_comment_and_no_sig (source : String) (file : Option String) (t : Tree)
    (read : Tree.parse source file = .ok t) :
    ∃ notes, Tree.parseNoting source file = .ok (t, notes) ∧ t.Owns notes := by
  obtain ⟨notes, noting⟩ := Tree.parseNoting_of_parse read
  obtain ⟨level, body, rfl, comments, statements⟩ := Tree.accounts_parseNoting noting
  have allots : Note.Allots (notes.filter Note.isStatement) (Outline.owners (Outline.nodesAll body)) :=
    statements ▸ Outline.allots_notesAll body
  have outline : (Tree.ofOutlines level body).outline Tree.root = .mk .root body :=
    Tree.outline_ofOutlines level body
  have nodes : (Outline.mk .root body).nodes = .root :: Outline.nodesAll body := by
    rw [Outline.nodes]
  have owners : Outline.owners (.root :: Outline.nodesAll body) =
      Outline.owners (Outline.nodesAll body) := Outline.owners_cons_of_not_signable rfl
  refine ⟨notes, noting, ?_, ?_, ?_, ?_, ?_⟩
  · rw [outline, Tree.ofOutlines, List.toList_toArray, Outline.map_node_slots]
  · rw [outline, nodes]
    exact comments
  · rw [outline, statements, Outline.body]
  · rw [outline, nodes, owners, allots.sigs, Note.filterMap_sig?_filter]
  · rw [outline, nodes, owners]
    exact Note.sharedOut_of_filter allots

theorem reader_loses_no_comment_and_no_sig_nestedFile :
    ∃ t, Tree.parse (nestedFile.render { foldEmptyScopes := true }) none = .ok t ∧
      ∃ notes, Tree.parseNoting (nestedFile.render { foldEmptyScopes := true }) none = .ok (t, notes) ∧
        t.Owns notes := by
  have printable : nestedFile.Printable { foldEmptyScopes := true } := by decide
  obtain ⟨t, read, -, -⟩ := Tree.parse_render printable rfl rfl none
  exact ⟨t, read, reader_loses_no_comment_and_no_sig _ none t read⟩

end InterfaceFile
