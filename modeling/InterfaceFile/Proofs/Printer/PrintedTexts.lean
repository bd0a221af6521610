import InterfaceFile.Printer.File
import InterfaceFile.Proofs.RoundTrip.ReadArguments

/-!
# Texts that a tree brings into print

Names, raw texts and comments come from the tree; the words and marks between them are visible. So a
control character, such as a line end or an escape character, is in a printed text only if it is in
one of the texts that the tree brings.
-/

namespace InterfaceFile

/-! ## Texts without a character -/

namespace Text

variable {c : Char} {a b s : String}

/-- The text does not have the character `c`. -/
def Lacks (c : Char) (s : String) : Prop :=
  c ∉ s.toList

instance (c : Char) (s : String) : Decidable (Lacks c s) :=
  inferInstanceAs (Decidable (_ ∉ _))

@[simp]
theorem lacks_append : Lacks c (a ++ b) ↔ Lacks c a ∧ Lacks c b := by
  simp [Lacks]

/-- Are all characters after the control characters? -/
def isVisible (s : String) : Bool :=
  s.toList.all fun c => 32 ≤ c.toNat

/-- Control characters come before the space, which is character 32. -/
def IsControl (c : Char) : Prop :=
  c.toNat < 32

instance (c : Char) : Decidable (IsControl c) :=
  inferInstanceAs (Decidable (_ < _))

theorem IsControl.lacks (control : IsControl c) (visible : isVisible s = true) : Lacks c s :=
  fun inside => absurd control (Nat.not_lt.2 (by simpa using List.all_eq_true.1 visible c inside))

/-- A text between two visible ones. -/
theorem IsControl.lacks_between (control : IsControl c) {opening inside closing : String}
    (first : isVisible opening = true) (lacks : Lacks c inside) (last : isVisible closing = true) :
    Lacks c (opening ++ inside ++ closing) :=
  lacks_append.2 ⟨lacks_append.2 ⟨control.lacks first, lacks⟩, control.lacks last⟩

theorem lacks_join {separator : String} (between : Lacks c separator) :
    ∀ {texts : List String}, (∀ s ∈ texts, Lacks c s) → Lacks c (join separator texts)
  | [], _ => List.not_mem_nil
  | [s], all => by
    rw [join_singleton]
    exact all s List.mem_cons_self
  | s :: s' :: rest, all => by
    obtain ⟨first, others⟩ := List.forall_mem_cons.1 all
    rw [join_cons_cons, lacks_append, lacks_append]
    exact ⟨⟨first, between⟩, lacks_join between others⟩

theorem mem_of_mem_split {separator c : Char} {piece cs : List Char}
    (listed : piece ∈ split separator cs) (member : c ∈ piece) : c ∈ cs := by
  induction cs generalizing piece with
  | nil =>
    obtain rfl : piece = [] := List.mem_singleton.1 listed
    cases member
  | cons d cs ih =>
    have unfolded : split separator (d :: cs) = consPiece separator d (split separator cs) := rfl
    rw [unfolded] at listed
    cases pieces : split separator cs with
    | nil =>
      rw [pieces, consPiece, List.mem_singleton] at listed
      simp_all
    | cons first rest =>
      rw [pieces] at ih listed
      rw [consPiece] at listed
      split at listed
      · rcases List.mem_cons.1 listed with rfl | later
        · cases member
        · exact List.mem_cons_of_mem _ (ih later member)
      · rcases List.mem_cons.1 listed with rfl | later
        · rcases List.mem_cons.1 member with rfl | inside
          · exact List.mem_cons_self
          · exact List.mem_cons_of_mem _ (ih List.mem_cons_self inside)
        · exact List.mem_cons_of_mem _ (ih (List.mem_cons_of_mem _ later) member)

theorem lacks_of_mem_lines {line : String} (lacks : Lacks c s) (listed : line ∈ lines s) :
    Lacks c line := by
  obtain ⟨piece, member, rfl⟩ := List.mem_map.1 listed
  intro inside
  rw [String.toList_ofList] at inside
  exact lacks (mem_of_mem_split member inside)

end Text

open Text (Lacks)

/-! ## The texts of a tree -/

/-- The text of a default value. -/
def ParamShape.texts : ParamShape → List String
  | optional value | keywordOptional value => [value]
  | _ => []

/-- The texts of a method parameter that are printed. -/
def Param.texts (p : Param) : List String :=
  p.name :: p.shape.texts ++ p.comments.map Comment.text

def SigParam.texts (p : SigParam) : List String :=
  p.name :: p.type :: p.comments.map Comment.text

def SigOp.texts : SigOp → List String
  | typeParameters names => names
  | params entries => entries.flatMap SigParam.texts
  | returns type => [type]
  | checked level => [level]
  | _ => []

def Sig.texts (s : Sig) : List String :=
  s.ops.flatMap SigOp.texts

def Callee.texts : Callee → List String
  | helper name | typeMember name _ | other name => [name]
  | _ => []

def Declaration.texts : Declaration → List String
  | scope s => s.name :: match s.kind with
    | .classDef superclass => superclass.toList
    | _ => []
  | const c => c.name :: c.value.toList
  | method m => m.name :: m.params.flatMap Param.texts ++ m.sigs.flatMap Sig.texts
  | attr a => a.names ++ a.sigs.flatMap Sig.texts
  | call c => c.callee.texts ++ c.args ++ c.block.toList
  | blank => []

/-- The names, raw texts and comments of a node, and the file that it was read from. -/
def Node.texts (n : Node) : List String :=
  n.decl.texts ++ n.comments.map Comment.text ++ (n.loc.bind Location.file).toList

/-- All texts that a tree can bring into print. -/
def Tree.texts (t : Tree) : List String :=
  t.strictness.toList ++ t.slots.toList.flatMap fun s => s.node.texts

/-! ## Parts of statements on one line -/

variable {c : Char} (control : Text.IsControl c)

include control

theorem SigParam.lacks_render {p : SigParam} (lacks : ∀ s ∈ p.texts, Lacks c s) :
    Lacks c p.render := by
  rw [render, Text.lacks_append, Text.lacks_append]
  exact ⟨⟨lacks _ (by simp [texts]), control.lacks (by decide)⟩, lacks _ (by simp [texts])⟩

theorem Param.lacks_render {p : Param} (lacks : ∀ s ∈ p.texts, Lacks c s) : Lacks c p.render := by
  have name : Lacks c p.name := lacks _ (by simp [texts])
  rw [render]
  split
  · exact name
  · next value shape =>
    have inside : Lacks c value := lacks _ (by simp [texts, ParamShape.texts, shape])
    exact Text.lacks_append.2 ⟨Text.lacks_append.2 ⟨name, control.lacks (by decide)⟩, inside⟩
  · exact Text.lacks_append.2 ⟨control.lacks (by decide), name⟩
  · exact Text.lacks_append.2 ⟨name, control.lacks (by decide)⟩
  · next value shape =>
    have inside : Lacks c value := lacks _ (by simp [texts, ParamShape.texts, shape])
    exact Text.lacks_append.2 ⟨Text.lacks_append.2 ⟨name, control.lacks (by decide)⟩, inside⟩
  · exact Text.lacks_append.2 ⟨control.lacks (by decide), name⟩
  · exact Text.lacks_append.2 ⟨control.lacks (by decide), name⟩

/-! ### Signatures -/

namespace Sig

variable {s : Sig}

omit control in
theorem lacks_of_mem_ops (lacks : ∀ x ∈ s.texts, Lacks c x) {op : SigOp} (listed : op ∈ s.ops) :
    ∀ x ∈ op.texts, Lacks c x :=
  fun x member => lacks x (List.mem_flatMap.2 ⟨op, listed, member⟩)

omit control in
theorem lacks_of_mem_allParams (lacks : ∀ x ∈ s.texts, Lacks c x) {entries : List SigParam}
    (given : s.allParams? = some entries) : ∀ p ∈ entries, ∀ x ∈ p.texts, Lacks c x := by
  intro p listed x member
  rw [allParams?] at given
  split at given
  · cases given
  · obtain rfl := Option.some.inj given
    obtain ⟨list, found, inside⟩ := List.mem_flatten.1 listed
    obtain ⟨op, held, params⟩ := List.mem_filterMap.1 found
    cases op with
    | params entries =>
      cases params
      exact lacks_of_mem_ops lacks held x (List.mem_flatMap.2 ⟨p, inside, member⟩)
    | _ => cases params

theorem lacks_typeParametersText (lacks : ∀ x ∈ s.texts, Lacks c x) :
    ∀ x ∈ s.typeParametersText?, Lacks c x := by
  intro x given
  have names : ∀ name ∈ s.ops.flatMap SigOp.typeNames, Lacks c name := by
    intro name listed
    obtain ⟨op, member, inside⟩ := List.mem_flatMap.1 listed
    cases op with
    | typeParameters names => exact lacks_of_mem_ops lacks member name inside
    | _ => cases inside
  rw [typeParametersText?] at given
  split at given
  · cases given
  · next all _ =>
    obtain rfl := Option.some.inj given
    refine control.lacks_between (by decide) ?_ (by decide)
    refine Text.lacks_join (control.lacks (by decide)) fun y listed => ?_
    obtain ⟨name, member, rfl⟩ := List.mem_map.1 listed
    exact Text.lacks_append.2 ⟨control.lacks (by decide), names name member⟩

theorem lacks_trailerText (lacks : ∀ x ∈ s.texts, Lacks c x) : ∀ x ∈ s.trailerText?, Lacks c x := by
  intro x given
  have flag : ∀ y ∈ s.ops.filterMap SigOp.flag?, Lacks c y := by
    intro y listed
    obtain ⟨op, -, flag⟩ := List.mem_filterMap.1 listed
    cases op <;> cases flag <;> exact control.lacks (by decide)
  have result : ∀ y ∈ s.ops.filterMap SigOp.result?, Lacks c y := by
    intro y listed
    obtain ⟨op, member, result⟩ := List.mem_filterMap.1 listed
    cases op with
    | returns type =>
      cases result
      have inside := lacks_of_mem_ops lacks member type (by simp [SigOp.texts])
      exact control.lacks_between (by decide) inside (by decide)
    | void =>
      cases result
      exact control.lacks (by decide)
    | _ => cases result
  have check : ∀ y ∈ s.ops.filterMap SigOp.check?, Lacks c y := by
    intro y listed
    obtain ⟨op, member, check⟩ := List.mem_filterMap.1 listed
    cases op with
    | checked level =>
      cases check
      have inside := lacks_of_mem_ops lacks member level (by simp [SigOp.texts])
      exact control.lacks_between (by decide) inside (by decide)
    | _ => cases check
  rw [trailerText?] at given
  split at given
  · cases given
  · obtain rfl := Option.some.inj given
    refine Text.lacks_join (control.lacks (by decide)) fun y listed => ?_
    rw [List.mem_append, List.mem_append, Option.mem_toList, Option.mem_toList] at listed
    rcases listed with (one | one) | one
    · exact flag y one
    · exact result y (List.mem_of_getLast? one)
    · exact check y (List.mem_of_getLast? one)

theorem lacks_chainText (lacks : ∀ x ∈ s.texts, Lacks c x) : Lacks c s.chainText := by
  refine Text.lacks_join (control.lacks (by decide)) fun x listed => ?_
  obtain ⟨part, member, rfl⟩ := List.mem_filterMap.1 listed
  simp only [List.mem_cons, List.not_mem_nil, or_false] at member
  rcases member with given | given | given
  · exact lacks_typeParametersText control lacks x given.symm
  · cases params : s.allParams? with
    | none =>
      rw [params] at given
      cases given
    | some entries =>
      rw [params] at given
      obtain rfl := Option.some.inj given
      refine control.lacks_between (by decide) ?_ (by decide)
      refine Text.lacks_join (control.lacks (by decide)) fun y listed => ?_
      obtain ⟨p, member, rfl⟩ := List.mem_map.1 listed
      exact SigParam.lacks_render control (lacks_of_mem_allParams lacks params p member)
  · exact lacks_trailerText control lacks x given.symm

end Sig

/-! ### Calls -/

theorem Call.lacks_render {o : PrintOptions} {call : Call}
    (lacks : ∀ s ∈ call.callee.texts ++ call.args ++ call.block.toList, Lacks c s) :
    Lacks c (call.render o) := by
  have callee : ∀ s ∈ call.callee.texts, Lacks c s := fun s listed => lacks s (by simp [listed])
  have list : Lacks c (Text.join ", " call.args) :=
    Text.lacks_join (control.lacks (by decide)) fun s listed => lacks s (by simp [listed])
  have front : Lacks c (assignment call.callee) := by
    cases h : call.callee with
    | typeMember name template =>
      exact Text.lacks_append.2 ⟨callee name (by simp [h, Callee.texts]), control.lacks (by decide)⟩
    | _ => exact List.not_mem_nil
  have word : Lacks c call.callee.word := by
    cases h : call.callee with
    | mixin how => cases how <;> exact control.lacks (by decide)
    | visibility level => cases level <;> exact control.lacks (by decide)
    | helper name =>
      exact Text.lacks_append.2 ⟨callee name (by simp [h, Callee.texts]), control.lacks (by decide)⟩
    | typeMember name template =>
      cases template with
      | true => exact control.lacks (s := "type_template") (by decide)
      | false => exact control.lacks (s := "type_member") (by decide)
    | structField field => cases field <;> exact control.lacks (by decide)
    | other name => exact callee name (by simp [h, Callee.texts])
    | _ => exact control.lacks (by decide)
  have args : Lacks c (argsText (parenthesized o call.callee) call.args) := by
    rw [argsText]
    split
    · exact List.not_mem_nil
    · split
      · exact control.lacks_between (by decide) list (by decide)
      · exact Text.lacks_append.2 ⟨control.lacks (by decide), list⟩
  have block : Lacks c (blockText call.block) := by
    cases h : call.block with
    | none => exact List.not_mem_nil
    | some block =>
      have inside : Lacks c block := lacks block (by simp [h])
      exact control.lacks_between (by decide) inside (by decide)
  simp only [render, Text.lacks_append]
  exact ⟨⟨⟨front, word⟩, args⟩, block⟩

end InterfaceFile
