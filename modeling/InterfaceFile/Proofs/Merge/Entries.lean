import InterfaceFile.Merge.Forest
import Mathlib.Data.List.Nodup
import Mathlib.Data.List.Perm.Basic

/-!
# Numbered entries

A merge only adds entries, and every new one gets the next number. So the entries of a finished
merge have the numbers from 1 up to the last, each once, and the tree that holds them says what the
entries say, without those that were dropped.
-/

namespace InterfaceFile

namespace Entry

mutual

/-- The numbers of an entry and of all entries inside it. -/
def ids : Entry → List NodeId
  | mk id _ _ body => id :: idsAll body

/-- The numbers of entries and of all entries inside them. -/
def idsAll : List Entry → List NodeId
  | [] => []
  | e :: rest => e.ids ++ idsAll rest

end

mutual

/-- The statement that an entry stands for. -/
def outline : Entry → Outline
  | mk _ node _ body => .mk node (outlines body)

/-- The statements that entries stand for; a dropped one stands for nothing. -/
def outlines : List Entry → List Outline
  | [] => []
  | e :: rest => if e.dropped then outlines rest else e.outline :: outlines rest

end

@[simp]
theorem idsAll_append (es fs : List Entry) : idsAll (es ++ fs) = idsAll es ++ idsAll fs := by
  induction es with
  | nil => rfl
  | cons e rest ih => rw [List.cons_append, idsAll, idsAll, ih, List.append_assoc]

theorem outlines_append (es fs : List Entry) :
    outlines (es ++ fs) = outlines es ++ outlines fs := by
  induction es with
  | nil => rfl
  | cons e rest ih =>
    rw [List.cons_append, outlines, outlines, ih]
    split <;> rfl

/-- An entry that stays stands between the others with what it says. -/
theorem outlines_split {before after : List Entry} {e : Entry} (stays : e.dropped = false) :
    outlines (before ++ e :: after) =
      outlines before ++ .mk e.node (outlines e.body) :: outlines after := by
  obtain ⟨id, node, dropped, body⟩ := e
  obtain rfl : dropped = false := stays
  rw [outlines_append, outlines, if_neg (by simp [Entry.dropped])]
  rfl

/-- A dropped entry does not show. -/
theorem outlines_split_dropped {before after : List Entry} {e : Entry}
    (dropped : e.dropped = true) :
    outlines (before ++ e :: after) = outlines before ++ outlines after := by
  rw [outlines_append, outlines, if_pos dropped]

/-- What entries say comes from those that stay. -/
theorem mem_outlines {es : List Entry} {o : Outline} :
    o ∈ outlines es ↔ ∃ e ∈ es, e.dropped = false ∧ o = .mk e.node (outlines e.body) := by
  induction es with
  | nil => simp [outlines]
  | cons e rest ih =>
    obtain ⟨id, node, dropped, body⟩ := e
    cases dropped with
    | true => simp [outlines, Entry.dropped, ih]
    | false => simp [outlines, outline, Entry.dropped, Entry.node, Entry.body, ih]

theorem ids_eq (e : Entry) : e.ids = e.id :: idsAll e.body := by
  cases e with
  | mk id node dropped body => rfl

theorem id_mem_ids (e : Entry) : e.id ∈ e.ids := by
  cases e with
  | mk id node dropped body => exact List.mem_cons_self

theorem ids_subset_idsAll {e : Entry} {es : List Entry} (member : e ∈ es) : e.ids ⊆ idsAll es := by
  induction es with
  | nil => cases member
  | cons d rest ih =>
    rw [idsAll]
    rcases List.mem_cons.1 member with rfl | later
    · exact List.subset_append_left _ _
    · exact List.Subset.trans (ih later) (List.subset_append_right _ _)

/-- Among entries with different numbers a replacement takes the place of one entry only. -/
theorem replaceIn_append {before after : List Entry} {e d : Entry}
    (distinct : (idsAll (before ++ e :: after)).Nodup) (same : d.id = e.id) :
    d.replaceIn (before ++ e :: after) = before ++ d :: after := by
  rw [idsAll_append, idsAll] at distinct
  have others : ∀ x ∈ before ++ after, x.id ≠ d.id := by
    intro x inside eq
    have here := id_mem_ids e
    have there := id_mem_ids x
    rw [eq, same] at there
    rcases List.mem_append.1 inside with left | right
    · exact List.disjoint_of_nodup_append distinct (ids_subset_idsAll left there)
        (List.mem_append_left _ here)
    · have tail := (List.nodup_append.1 distinct).2.1
      exact List.disjoint_of_nodup_append tail here (ids_subset_idsAll right there)
  have keep : ∀ xs : List Entry, (∀ x ∈ xs, x.id ≠ d.id) →
      xs.map (fun x => if x.id = d.id then d else x) = xs := by
    intro xs other
    refine (List.map_congr_left fun x inside => ?_).trans (List.map_id xs)
    rw [if_neg (other x inside)]
    rfl
  rw [replaceIn, List.map_append, List.map_cons, if_pos same.symm,
    keep before fun x inside => others x (List.mem_append_left _ inside),
    keep after fun x inside => others x (List.mem_append_right _ inside)]

end Entry

namespace Merging

/-- The entries have different numbers, all of them given out before. -/
structure Numbered (m : Merging) : Prop where
  nodup : (Entry.idsAll m.entries).Nodup
  lt_next : ∀ i ∈ Entry.idsAll m.entries, i < m.next

/-- From `m` to `m'` entries were only added, with the numbers from `m.next` on. -/
def Grows (m m' : Merging) : Prop :=
  ∃ n : Nat, m'.next = m.next + n ∧
    (Entry.idsAll m'.entries).Perm (Entry.idsAll m.entries ++ List.range' m.next n)

theorem Grows.of_ids {m m' : Merging} (next : m'.next = m.next)
    (ids : Entry.idsAll m'.entries = Entry.idsAll m.entries) : Grows m m' :=
  ⟨0, next, by simp [ids]⟩

theorem Grows.refl (m : Merging) : Grows m m :=
  .of_ids rfl rfl

theorem Grows.trans {a b c : Merging} (h : Grows a b) (k : Grows b c) : Grows a c := by
  obtain ⟨n, hn, first⟩ := h
  obtain ⟨n', hn', second⟩ := k
  refine ⟨n + n', by rw [hn', hn, Nat.add_assoc], second.trans ?_⟩
  rw [← List.range'_append_1, ← hn, ← List.append_assoc]
  exact first.append_right _

theorem Grows.numbered {m m' : Merging} (h : Grows m m') (old : m.Numbered) : m'.Numbered := by
  obtain ⟨n, next, ids⟩ := h
  refine ⟨?_, fun i member => ?_⟩
  · refine ids.nodup_iff.2 (List.nodup_append.2 ⟨old.nodup, List.nodup_range', ?_⟩)
    intro i before j new eq
    have low : i < m.next := old.lt_next i before
    have high : m.next ≤ j := (List.mem_range'_1.1 new).1
    exact absurd (eq ▸ low) (Nat.not_lt.2 high)
  · rw [next]
    rcases List.mem_append.1 (ids.mem_iff.1 member) with before | new
    · exact Nat.lt_of_lt_of_le (old.lt_next i before) (Nat.le_add_right _ _)
    · exact (List.mem_range'_1.1 new).2

variable {m : Merging}

/-- The entries inside an entry are numbered, too. -/
theorem Numbered.inside (h : m.Numbered) {e : Entry} (conflicts : List Conflict)
    (member : e ∈ m.entries) :
    Numbered { entries := e.body, next := m.next, conflicts } := by
  have inBody : Entry.idsAll e.body ⊆ Entry.idsAll m.entries := by
    refine List.Subset.trans ?_ (Entry.ids_subset_idsAll member)
    rw [e.ids_eq]
    exact List.subset_cons_self _ _
  refine ⟨?_, fun i inside => h.lt_next i (inBody inside)⟩
  obtain ⟨before, after, split⟩ := List.append_of_mem member
  have distinct := h.nodup
  rw [split, Entry.idsAll_append, Entry.idsAll, e.ids_eq] at distinct
  have tail := (List.nodup_append.1 (List.nodup_append.1 distinct).2.1).1
  exact (List.nodup_cons.1 tail).2

/-- Nothing is numbered where nothing is merged yet. -/
theorem numbered_start (next : NodeId) (conflicts : List Conflict) :
    Numbered { next, conflicts } :=
  ⟨List.nodup_nil, by simp [Entry.idsAll]⟩

theorem numbered_empty : Numbered {} :=
  numbered_start _ _

/-- A new entry takes the next number, and what is inside it those after that. -/
theorem Grows.append {inner : Merging} {conflicts : List Conflict} (node : Node)
    (inside : Grows { next := m.next + 1, conflicts } inner) :
    m.Grows { inner with entries := m.entries ++ [.mk m.next node false inner.entries] } := by
  obtain ⟨n, next, ids⟩ := inside
  refine ⟨n + 1, ?_, ?_⟩
  · rw [next, Nat.add_right_comm, Nat.add_assoc]
  · simp only [Entry.idsAll, List.nil_append] at ids
    simp only [Entry.idsAll_append, Entry.idsAll, Entry.ids, List.append_nil]
    rw [List.range'_succ]
    exact (ids.cons m.next).append_left _

/-- An entry that stays in its place keeps its number, whatever else becomes of it. -/
theorem Grows.replace {inner : Merging} {before after : List Entry} {e : Entry}
    {conflicts : List Conflict} (node : Node) (dropped : Bool)
    (split : m.entries = before ++ e :: after)
    (inside : Grows { entries := e.body, next := m.next, conflicts } inner) :
    m.Grows { inner with entries := before ++ .mk e.id node dropped inner.entries :: after } := by
  obtain ⟨n, next, ids⟩ := inside
  refine ⟨n, next, ?_⟩
  rw [split]
  simp only [Entry.idsAll_append, Entry.idsAll, e.ids_eq, Entry.ids]
  refine List.perm_iff_count.2 fun x => ?_
  have count := List.perm_iff_count.1 ids x
  simp only [List.count_append] at count
  simp only [List.count_append, List.count_cons, count]
  omega

end Merging

/-! ## The tree of a merge -/

namespace Entry

mutual

theorem map_fst_slots (parent : NodeId) : ∀ e : Entry, (e.slots parent).map Prod.fst = e.ids
  | mk id node dropped body => by
    rw [slots, ids, List.map_cons, map_fst_slotsAll]

theorem map_fst_slotsAll (parent : NodeId) :
    ∀ es : List Entry, (slotsAll parent es).map Prod.fst = idsAll es
  | [] => rfl
  | e :: rest => by
    rw [slotsAll, idsAll, List.map_append, map_fst_slots, map_fst_slotsAll]

end

mutual

/-- A tree that holds the slots of an entry says what the entry says. -/
theorem outlineUpTo_eq_outline {t : Tree} :
    ∀ (e : Entry) (parent : NodeId) (n : Nat), (∀ p ∈ e.slots parent, t.slot p.1 = p.2) →
      e.ids.length ≤ n + 1 → t.outlineUpTo n e.id = e.outline
  | mk id node dropped body, parent, n, holds, enough => by
    rw [slots] at holds
    have own := holds _ List.mem_cons_self
    have inner : ∀ p ∈ slotsAll id body, t.slot p.1 = p.2 :=
      fun p member => holds p (List.mem_cons_of_mem _ member)
    have hnode : t.node id = node := by rw [Tree.node, own]
    have hbody : t.body id = kept body := by rw [Tree.body, own]
    rw [ids, List.length_cons] at enough
    rw [outline, Entry.id]
    cases n with
    | zero =>
      cases body with
      | nil => rw [Tree.outlineUpTo, hnode, outlines]
      | cons e rest =>
        have positive := List.length_pos_of_mem (id_mem_ids e)
        rw [idsAll, List.length_append] at enough
        omega
    | succ n =>
      rw [Tree.outlineUpTo, hnode, hbody, outlineUpTo_kept body id n inner (by omega)]

theorem outlineUpTo_kept {t : Tree} :
    ∀ (es : List Entry) (parent : NodeId) (n : Nat), (∀ p ∈ slotsAll parent es, t.slot p.1 = p.2) →
      (idsAll es).length ≤ n + 1 → (kept es).map (t.outlineUpTo n) = outlines es
  | [], _, _, _, _ => rfl
  | e :: rest, parent, n, holds, enough => by
    rw [slotsAll] at holds
    rw [idsAll, List.length_append] at enough
    have first := outlineUpTo_eq_outline e parent n
      (fun p member => holds p (List.mem_append_left _ member)) (by omega)
    have later := outlineUpTo_kept rest parent n
      (fun p member => holds p (List.mem_append_right _ member)) (by omega)
    rw [outlines]
    cases dropped : e.dropped with
    | true =>
      rw [if_pos rfl, ← later]
      simp [kept, dropped]
    | false =>
      rw [if_neg (by simp), ← later, ← first]
      simp [kept, dropped]

end

end Entry

/-- Puts a slot at its number. -/
def placeSlot (slots : Array Slot) (numbered : NodeId × Slot) : Array Slot :=
  slots.setIfInBounds numbered.1 numbered.2

theorem getElem?_foldl_placeSlot_of_not_mem {i : NodeId} :
    ∀ {numbered : List (NodeId × Slot)} {slots : Array Slot}, i ∉ numbered.map Prod.fst →
      (numbered.foldl placeSlot slots)[i]? = slots[i]?
  | [], _, _ => rfl
  | p :: rest, slots, missing => by
    rw [List.map_cons, List.mem_cons, not_or] at missing
    rw [List.foldl_cons, getElem?_foldl_placeSlot_of_not_mem missing.2, placeSlot,
      Array.getElem?_setIfInBounds_ne (Ne.symm missing.1)]

/-- Slots with different numbers all end up at their numbers. -/
theorem getElem?_foldl_placeSlot {i : NodeId} {s : Slot} :
    ∀ {numbered : List (NodeId × Slot)} {slots : Array Slot}, (numbered.map Prod.fst).Nodup →
      (i, s) ∈ numbered → i < slots.size → (numbered.foldl placeSlot slots)[i]? = some s
  | p :: rest, slots, distinct, member, bound => by
    rw [List.map_cons, List.nodup_cons] at distinct
    rw [List.foldl_cons]
    rcases List.mem_cons.1 member with rfl | later
    · rw [getElem?_foldl_placeSlot_of_not_mem distinct.1, placeSlot,
        Array.getElem?_setIfInBounds_self_of_lt bound]
    · exact getElem?_foldl_placeSlot distinct.2 later (by simpa [placeSlot] using bound)

theorem size_foldl_placeSlot (numbered : List (NodeId × Slot)) (slots : Array Slot) :
    (numbered.foldl placeSlot slots).size = slots.size := by
  induction numbered generalizing slots with
  | nil => rfl
  | cons p rest ih => rw [List.foldl_cons, ih, placeSlot, Array.size_setIfInBounds]

namespace Tree

/-- The slots of the tree of a merge, with their numbers. -/
def numberedSlots (m : Merging) : List (NodeId × Slot) :=
  (root, { node := .root, body := Entry.kept m.entries }) :: Entry.slotsAll root m.entries

variable {m : Merging} (strictness : Option String)

/-- A finished merge has used the numbers from 1 on, each once. -/
theorem ids_of_grows (grown : Merging.Grows {} m) :
    (Entry.idsAll m.entries).Perm (List.range' 1 (m.next - 1)) ∧ 1 ≤ m.next := by
  obtain ⟨n, next, order⟩ := grown
  have count : m.next = 1 + n := next
  refine ⟨?_, count ▸ Nat.le_add_right 1 n⟩
  rw [count, Nat.add_sub_cancel_left]
  simpa [Entry.idsAll] using order

theorem size_ofEntries : (ofEntries strictness m).size = m.next := by
  have slotsEq : (ofEntries strictness m).slots =
      (numberedSlots m).foldl placeSlot (Array.replicate m.next default) := rfl
  rw [size, slotsEq, size_foldl_placeSlot, Array.size_replicate]

/-- Every entry of a merge is in the tree, at its number. -/
theorem slot_ofEntries (grown : Merging.Grows {} m) :
    ∀ p ∈ numberedSlots m, (ofEntries strictness m).slot p.1 = p.2 := by
  obtain ⟨ids, positive⟩ := ids_of_grows grown
  have inside : ∀ i ∈ Entry.idsAll m.entries, 1 ≤ i ∧ i < 1 + (m.next - 1) :=
    fun i member => List.mem_range'_1.1 (ids.mem_iff.1 member)
  have distinct : ((numberedSlots m).map Prod.fst).Nodup := by
    rw [numberedSlots, List.map_cons, Entry.map_fst_slotsAll, List.nodup_cons]
    refine ⟨fun zero => ?_, ids.nodup_iff.2 List.nodup_range'⟩
    exact Nat.not_succ_le_zero 0 (inside _ zero).1
  intro p member
  have bound : p.1 < m.next := by
    rcases List.mem_cons.1 member with rfl | later
    · exact positive
    · have known : p.1 ∈ Entry.idsAll m.entries := by
        rw [← Entry.map_fst_slotsAll root]
        exact List.mem_map_of_mem later
      have small := (inside p.1 known).2
      rwa [Nat.add_sub_cancel' positive] at small
  have found : ((numberedSlots m).foldl placeSlot (Array.replicate m.next default))[p.1]? =
      some p.2 := by
    apply getElem?_foldl_placeSlot distinct member
    rwa [Array.size_replicate]
  have slotsEq : (ofEntries strictness m).slots =
      (numberedSlots m).foldl placeSlot (Array.replicate m.next default) := rfl
  rw [slot, slotsEq, found]
  rfl

/-- The tree of a merge says what the entries say. -/
theorem outline_root_ofEntries (grown : Merging.Grows {} m) :
    (ofEntries strictness m).outline root = .mk .root (Entry.outlines m.entries) := by
  obtain ⟨ids, positive⟩ := ids_of_grows grown
  have holds := slot_ofEntries strictness grown
  have count : (Entry.idsAll m.entries).length = m.next - 1 := by simpa using ids.length_eq
  have top := holds _ List.mem_cons_self
  obtain ⟨n, hn⟩ := Nat.exists_eq_add_of_le' positive
  rw [outline, size_ofEntries, hn, outlineUpTo, node, body, top]
  congr 1
  exact Entry.outlineUpTo_kept m.entries root n
    (fun p member => holds p (List.mem_cons_of_mem _ member)) (by omega)

end Tree

/-- The tree of a merge holds the statements of the entries that were not dropped. -/
theorem outline_ofEntries (strictness : Option String) {m : Merging} (grown : Merging.Grows {} m) :
    ((Tree.ofEntries strictness m).outline Tree.root).body = Entry.outlines m.entries := by
  rw [Tree.outline_root_ofEntries strictness grown]
  rfl

end InterfaceFile
