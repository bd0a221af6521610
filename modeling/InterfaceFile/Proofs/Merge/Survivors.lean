import InterfaceFile.Proofs.Merge.NormalForm
import Mathlib.Data.List.Induction

/-!
# Declarations that overwrite one another

If the later of two declarations always wins, then what is left at a position (a path of scope names
and a key) is decided by the declarations at that position alone, in the order in which they come.
So are the conflicts: a declaration clashes with what the earlier ones at its position have left.
-/

namespace InterfaceFile

namespace Located

/-- The declarations at a position, in order. -/
def occurrences (path : List String) (key : Key) (ds : List Located) : List Node :=
  (declaredAt path ds).filter fun n => n.key? = some key

@[simp]
theorem occurrences_append (path : List String) (key : Key) (ds es : List Located) :
    occurrences path key (ds ++ es) = occurrences path key ds ++ occurrences path key es := by
  simp [occurrences]

theorem occurrences_cons (s : String) (path : List String) (key : Key) (ds : List Located) :
    occurrences (s :: path) key ds = occurrences path key (below s ds) := by
  rw [occurrences, declaredAt_cons]
  rfl

theorem occurrences_singleton (path : List String) (key : Key) (d : Located) :
    occurrences path key [d] = if d.path = path ∧ d.node.key? = some key then [d.node] else [] := by
  by_cases here : d.path = path <;> by_cases named : d.node.key? = some key <;>
    simp [occurrences, declaredAt, here, named]

theorem key?_of_mem_occurrences (path : List String) (key : Key) (ds : List Located) :
    ∀ n ∈ occurrences path key ds, n.key? = some key := by
  intro n member
  simpa using (List.mem_filter.1 member).2

/-- Normal statements declare no more than one thing at a position. -/
theorem occurrences_eq_singleton {os : List Outline} (h : Outline.Normal os) {path : List String}
    {key : Key} {n : Node}
    (occurs : n ∈ occurrences path key (Outline.declarationsAll .pub os)) :
    occurrences path key (Outline.declarationsAll .pub os) = [n] := by
  have named := key?_of_mem_occurrences path key (Outline.declarationsAll .pub os)
  have distinct : ((occurrences path key (Outline.declarationsAll .pub os)).map Node.key?).Nodup :=
    (List.filter_sublist.map Node.key?).nodup (h.nodup_declaredAt path)
  generalize occurrences path key (Outline.declarationsAll .pub os) = ns at occurs named distinct ⊢
  match ns with
  | [a] => rw [List.mem_singleton.1 occurs]
  | a :: b :: rest =>
    have same := (named a (by simp)).trans (named b (by simp)).symm
    exact absurd (by simp [same]) (List.nodup_cons.1 distinct).1

end Located

open Located (below declaredAt occurrences)

namespace Node

variable {old new merged : Node} {key : Key}

theorem scope?_eq_none_of_key_ne (leaf : ∀ s, key ≠ .scope s) (named : old.key? = some key) :
    old.scope? = none := by
  cases hs : old.scope? with
  | none => rfl
  | some s =>
    rw [key?_eq_scope.2 ⟨s, hs, rfl⟩] at named
    exact absurd (Option.some.inj named).symm (leaf s.name)

/-- If the later declaration wins, one always stays. -/
theorem exists_unify_right (same : old.key? = new.key?) :
    ∃ merged, (old.unify .right new).node = some merged := by
  cases stays : (old.unify .right new).node with
  | none => exact absurd (eq_neither_of_unify same stays) (by decide)
  | some merged => exact ⟨merged, rfl⟩

/-- If the later declaration wins, every scope is entered. -/
theorem descend_unify_right (same : old.key? = new.key?) :
    (old.unify .right new).descend = new.isScope := by
  have outcome := unifies_unify .right same
  generalize old.unify .right new = union at outcome
  cases outcome with
  | equal leaf | different leaf => simp [isScope, leaf]
  | known _ hn | filled _ hn | kinds _ hn | superclasses _ hn => simp [isScope, hn]

/-- Without a body, what stays says what the later declaration says. They are in conflict if they do
    not say the same. -/
theorem unify_right_of_leaf (same : old.key? = new.key?) (leaf : new.scope? = none) :
    (∀ merged, (old.unify .right new).node = some merged → merged.stripped = new.stripped) ∧
      ((old.unify .right new).conflict = none ↔ old.stripped = new.stripped) := by
  have outcome := unifies_unify .right same
  generalize old.unify .right new = union at outcome
  cases outcome with
  | equal _ equal =>
    refine ⟨fun merged stays => ?_, by simp [equal]⟩
    obtain rfl := Option.some.inj stays
    exact equal
  | different _ other =>
    refine ⟨fun merged stays => ?_, by simp [other]⟩
    obtain rfl := Option.some.inj stays
    rfl
  | known _ hn | filled _ hn | kinds _ hn | superclasses _ hn =>
    rw [leaf] at hn
    cases hn

end Node

/-! ## What is left at a position -/

/-- What is left of an earlier declaration, if there is one, when a later one comes. -/
def overwrite (old : Option Node) (new : Node) : Node :=
  match old with
  | none => new
  | some old => (old.unify .right new).node.getD old

/-- What is left of the declarations at a position. -/
def survivor (ns : List Node) : Option Node :=
  ns.foldl (fun old new => some (overwrite old new)) none

theorem survivor_append (ns : List Node) (n : Node) :
    survivor (ns ++ [n]) = some (overwrite (survivor ns) n) := by
  rw [survivor, List.foldl_append]
  rfl

theorem survivor_eq_none {ns : List Node} : survivor ns = none ↔ ns = [] := by
  rcases List.eq_nil_or_concat ns with rfl | ⟨before, n, rfl⟩
  · simp [survivor]
  · rw [List.concat_eq_append, survivor_append]
    simp

section Survivor

variable {ns : List Node} {key : Key}

theorem key?_survivor (named : ∀ n ∈ ns, n.key? = some key) :
    ∀ {n}, survivor ns = some n → n.key? = some key := by
  induction ns using List.reverseRecOn with
  | nil => intro n left; cases left
  | append_singleton before n ih =>
    have own : n.key? = some key := named n (by simp)
    have earlier := @ih fun x member => named x (List.mem_append_left _ member)
    intro x last
    rw [survivor_append] at last
    obtain rfl := Option.some.inj last
    cases left : survivor before with
    | none => exact own
    | some old =>
      have known := earlier left
      have same : old.key? = n.key? := known.trans own.symm
      obtain ⟨merged, stays⟩ := Node.exists_unify_right same
      rw [overwrite, stays]
      exact (Node.key?_unify same stays).trans known

/-- Without a body, what is left says what the last declaration says. -/
theorem stripped_survivor (named : ∀ n ∈ ns, n.key? = some key) (leaf : ∀ s, key ≠ .scope s) :
    (survivor ns).map Node.stripped = ns.getLast?.map Node.stripped := by
  rcases List.eq_nil_or_concat ns with rfl | ⟨before, n, rfl⟩
  · rfl
  rw [List.concat_eq_append] at named ⊢
  have own : n.key? = some key := named n (by simp)
  rw [survivor_append, List.getLast?_concat]
  cases left : survivor before with
  | none => rfl
  | some old =>
    have known := key?_survivor (fun x member => named x (List.mem_append_left _ member)) left
    have same : old.key? = n.key? := known.trans own.symm
    obtain ⟨merged, stays⟩ := Node.exists_unify_right same
    rw [overwrite, stays]
    have bare := Node.scope?_eq_none_of_key_ne leaf own
    exact congrArg some ((Node.unify_right_of_leaf same bare).1 merged stays)

end Survivor

/-! ## Clashes -/

namespace Located

/-- The qualified name of a scope that is declared in a scope with the name `base`. -/
def innerName (base : String) (ds : List Located) (s : String) : String :=
  match survivor (occurrences [] (.scope s) ds) with
  | some n => n.qualifiedIn base
  | none => base

/-- The qualified name of the scopes of a path, seen from a scope with the name `base`. -/
def scopeName (base : String) (ds : List Located) : List String → String
  | [] => base
  | s :: path => scopeName (innerName base ds s) (below s ds) path

/-- The conflict of a declaration with what earlier ones have left at its position. -/
def clash (base : String) (seen : List Located) (d : Located) : Option Conflict := do
  let key ← d.node.key?
  let old ← survivor (occurrences d.path key seen)
  let kind ← (old.unify .right d.node).conflict
  return { kind, name := old.qualifiedIn (scopeName base seen d.path), left := old.loc,
           right := d.node.loc }

/-- The declarations that clash with earlier ones, each with its conflict. -/
def clashes (base : String) (seen : List Located) : List Located → List (Located × Conflict)
  | [] => []
  | d :: rest => ((clash base seen d).map fun c => (d, c)).toList ++ clashes base (seen ++ [d]) rest

/-- The conflicts of what is declared inside a node, if the node is a scope. -/
def innerConflicts (name : String) (seen inner : List Located) (node : Node) : List Conflict :=
  match node.scope? with
  | some s => (clashes name (below s.name seen) inner).map Prod.snd
  | none => []

theorem clashes_append (base : String) (seen ds es : List Located) :
    clashes base seen (ds ++ es) = clashes base seen ds ++ clashes base (seen ++ ds) es := by
  induction ds generalizing seen with
  | nil => simp [clashes]
  | cons d rest ih => simp [clashes, ih]

/-- Inside a scope, declarations clash as they do when they are seen from there. -/
theorem clashes_inside (base s : String) (seen ds : List Located) :
    clashes base seen (ds.map (inside s)) =
      (clashes (innerName base seen s) (below s seen) ds).map (Prod.map (inside s) id) := by
  induction ds generalizing seen with
  | nil => rfl
  | cons d rest ih =>
    have here : clash base seen (d.inside s) = clash (innerName base seen s) (below s seen) d := by
      simp only [clash, inside, occurrences_cons, scopeName]
    have below_next : below s (seen ++ [d.inside s]) = below s seen ++ [d] := by
      simp [below]
    have name_next : innerName base (seen ++ [d.inside s]) s = innerName base seen s := by
      rw [innerName, occurrences_append, occurrences_singleton, if_neg (by simp [inside]),
        List.append_nil]
      rfl
    rw [List.map_cons, clashes, clashes, here, ih, below_next, name_next, List.map_append]
    cases clash (innerName base seen s) (below s seen) d <;> rfl

/-- A declaration clashes by itself, and what is declared inside it clashes inside what is left of
    the declarations with its key. -/
theorem clashes_declares (base : String) (seen inner : List Located) {node : Node} {key : Key}
    (named : node.key? = some key) :
    (clashes base seen (node.declares inner)).map Prod.snd =
      (clash base seen { path := [], node }).toList ++
        innerConflicts ((overwrite (survivor (occurrences [] key seen)) node).qualifiedIn base)
          seen inner node := by
  have own : ∀ c : Option Conflict,
      (c.map fun c => (({ path := [], node } : Located), c)).toList.map Prod.snd = c.toList := by
    intro c
    cases c <;> rfl
  rw [Node.declares, clashes, List.map_append, own]
  congr 1
  cases hs : node.scope? with
  | none => simp [innerConflicts, hs, clashes]
  | some s =>
    obtain rfl : .scope s.name = key :=
      Option.some.inj ((Node.key?_eq_scope.2 ⟨s, hs, rfl⟩).symm.trans named)
    have below_next : below s.name (seen ++ [{ path := [], node }]) = below s.name seen := by
      simp [below, within?]
    simp only [clashes_inside, below_next, innerName, occurrences_append, occurrences_singleton,
      named, and_self, if_true, survivor_append, List.map_map, innerConflicts, hs]
    rfl

end Located

/-- The number of declarations that do not say what the one before them says. -/
def changes : List Node → Nat
  | a :: b :: rest => (if a.stripped = b.stripped then 0 else 1) + changes (b :: rest)
  | _ => 0

theorem changes_append {ns : List Node} {last : Node} (n : Node) (final : ns.getLast? = some last) :
    changes (ns ++ [n]) = changes ns + if last.stripped = n.stripped then 0 else 1 := by
  induction ns with
  | nil => cases final
  | cons a rest ih =>
    cases rest with
    | nil =>
      obtain rfl : a = last := by simpa using final
      simp [changes]
    | cons b rest =>
      have later := ih (by simpa using final)
      simp only [List.cons_append, changes] at later ⊢
      omega

namespace Located

variable {path : List String} {key : Key}

/-- A declaration without a body clashes if it does not say what the one before it says. -/
theorem changes_occurrences_append (base : String) (leaf : ∀ s, key ≠ .scope s)
    (seen : List Located) {d : Located} (here : d.path = path) (named : d.node.key? = some key) :
    changes (occurrences path key seen) + (clash base seen d).toList.length =
      changes (occurrences path key (seen ++ [d])) := by
  rw [occurrences_append, occurrences_singleton, if_pos ⟨here, named⟩]
  have known := key?_of_mem_occurrences path key seen
  have stated := stripped_survivor known leaf
  simp only [clash, named, here, Option.bind_eq_bind, Option.bind_some]
  cases left : survivor (occurrences path key seen) with
  | none =>
    rw [survivor_eq_none.1 left]
    rfl
  | some old =>
    have same : old.key? = d.node.key? := (key?_survivor known left).trans named.symm
    have outcome := (Node.unify_right_of_leaf same (Node.scope?_eq_none_of_key_ne leaf named)).2
    rw [left] at stated
    obtain ⟨last, final, equal⟩ := Option.map_eq_some_iff.1 stated.symm
    rw [changes_append d.node final, equal]
    cases conflict : (old.unify .right d.node).conflict with
    | none => simp [conflict, outcome.1 conflict]
    | some kind =>
      have other : old.stripped ≠ d.node.stripped := by
        intro same
        rw [outcome.2 same] at conflict
        cases conflict
      simp [conflict, other]

/-- The clashes at a position without a body are the changes there. -/
theorem countP_clashes (base : String) (path : List String) (leaf : ∀ s, key ≠ .scope s)
    (seen ds : List Located) :
    changes (occurrences path key seen) +
        (clashes base seen ds).countP (fun c => c.1.path = path ∧ c.1.node.key? = some key) =
      changes (occurrences path key (seen ++ ds)) := by
  induction ds generalizing seen with
  | nil => simp [clashes]
  | cons d rest ih =>
    have later := ih (seen ++ [d])
    rw [List.append_assoc, List.singleton_append] at later
    rw [clashes, List.countP_append, ← later, ← Nat.add_assoc]
    congr 1
    by_cases position : d.path = path ∧ d.node.key? = some key
    · rw [← changes_occurrences_append base leaf seen position.1 position.2]
      cases clash base seen d <;> simp [position]
    · rw [occurrences_append, occurrences_singleton, if_neg position, List.append_nil]
      cases clash base seen d <;> simp [position]

end Located

end InterfaceFile
