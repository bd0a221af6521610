import InterfaceFile.Proofs.Tree.Links
import InterfaceFile.Tree.Outline

/-!
# Grafted statements

A nested statement that is added to a tree becomes a block of slots. Inside the block every scope
comes before its body, so its links agree by themselves, and they do not touch the other slots.
-/

namespace InterfaceFile

namespace Outline

mutual

@[simp]
theorem length_slots (id : NodeId) (parent : Option NodeId) :
    ∀ o : Outline, (o.slots id parent).length = o.size
  | mk node body => by
    rw [slots, size, List.length_cons, length_slotsAll]

@[simp]
theorem length_slotsAll (next : NodeId) (parent : Option NodeId) :
    ∀ os : List Outline, (slotsAll next parent os).length = sizeAll os
  | [] => rfl
  | o :: rest => by
    rw [slotsAll, sizeAll, List.length_append, length_slots, length_slotsAll]

end

mutual

/-- The slots from `id` on are those of a statement. -/
def LaidOut (get : NodeId → Slot) (id : NodeId) (parent : Option NodeId) : Outline → Prop
  | mk node body =>
    get id = { node, parent, body := numbers (id + 1) body } ∧
      LaidOutAll get (id + 1) (some id) body

/-- The slots from `next` on are those of a list of statements. -/
def LaidOutAll (get : NodeId → Slot) (next : NodeId) (parent : Option NodeId) :
    List Outline → Prop
  | [] => True
  | o :: rest => o.LaidOut get next parent ∧ LaidOutAll get (next + o.size) parent rest

end

mutual

/-- A statement is laid out where its slots are found one after the other. -/
theorem laidOut_of_slots {get : NodeId → Slot} {id : NodeId} {parent : Option NodeId} :
    ∀ {o : Outline}, (∀ i s, (o.slots id parent)[i]? = some s → get (id + i) = s) →
      o.LaidOut get id parent
  | mk node body, found => by
    rw [slots] at found
    refine ⟨found 0 _ rfl, laidOutAll_of_slots fun i s at_i => ?_⟩
    have shifted := found (i + 1) s (by simpa using at_i)
    rwa [← Nat.add_assoc, Nat.add_right_comm] at shifted

theorem laidOutAll_of_slots {get : NodeId → Slot} {next : NodeId} {parent : Option NodeId} :
    ∀ {os : List Outline}, (∀ i s, (slotsAll next parent os)[i]? = some s → get (next + i) = s) →
      LaidOutAll get next parent os
  | [], _ => trivial
  | o :: rest, found => by
    rw [slotsAll] at found
    refine ⟨laidOut_of_slots fun i s at_i => ?_, laidOutAll_of_slots fun i s at_i => ?_⟩
    · have bound : i < (o.slots next parent).length := List.getElem?_eq_some_iff.1 at_i |>.1
      exact found i s (by rw [List.getElem?_append_left bound, at_i])
    · have after := found (o.size + i) s (by simpa [List.getElem?_append_right] using at_i)
      rwa [← Nat.add_assoc] at after

end

/-- The numbers of a list of statements, in order, with what they are bounded by. -/
theorem numbers_spec (next : Nat) (os : List Outline) :
    (numbers next os).Pairwise (· < ·) ∧
      ∀ c : Nat, c ∈ numbers next os → next ≤ c ∧ c < next + sizeAll os := by
  induction os generalizing next with
  | nil => simp [numbers]
  | cons o rest ih =>
    obtain ⟨sorted, bounds⟩ := ih (next + o.size)
    have positive : 0 < o.size := by
      cases o with
      | mk node body => simp [size]
    rw [numbers, sizeAll, List.pairwise_cons]
    refine ⟨⟨fun c member => ?_, sorted⟩, fun c member => ?_⟩
    · exact Nat.lt_of_lt_of_le (Nat.lt_add_of_pos_right positive) (bounds c member).1
    · rcases List.mem_cons.1 member with rfl | later
      · omega
      · have := bounds c later
        omega

theorem nodup_numbers (next : Nat) (os : List Outline) : (numbers next os).Nodup :=
  (numbers_spec next os).1.imp Nat.ne_of_lt

theorem LaidOutAll.parent_of_mem {get : NodeId → Slot} {next : Nat} {parent : Option NodeId}
    {os : List Outline} (h : LaidOutAll get next parent os) :
    ∀ c ∈ numbers next os, (get c).parent = parent := by
  induction os generalizing next with
  | nil => simp [numbers]
  | cons o rest ih =>
    intro c member
    rcases List.mem_cons.1 member with rfl | later
    · cases o with
      | mk node body =>
        rw [h.1.1]
    · exact ih h.2 c later

/-- What the links of slot `i` are in a block of slots that begins at `first` and ends before
    `last`: either the slot is among `tops`, which stand in `outer`, or a scope before it in the
    block lists it; and it lists later slots of the block, which name it. -/
structure LinksInside (get : NodeId → Slot) (first last : Nat) (outer : Option NodeId)
    (tops : List NodeId) (i : Nat) : Prop where
  parent : (i ∈ tops ∧ (get i).parent = outer) ∨
    ∃ p : Nat, (get i).parent = some p ∧ first ≤ p ∧ p < i ∧ i ∈ (get p).body
  nodup : (get i).body.Nodup
  body : ∀ c : Nat, c ∈ (get i).body → i < c ∧ c < last ∧ (get c).parent = some i

mutual

theorem LaidOut.linksInside {get : NodeId → Slot} {id : Nat} {parent : Option NodeId} :
    ∀ {o : Outline}, o.LaidOut get id parent →
      ∀ i : Nat, id ≤ i → i < id + o.size → LinksInside get id (id + o.size) parent [id] i
  | mk node body, h, i, low, high => by
    obtain ⟨own, inside⟩ := h
    have members := inside.parent_of_mem
    obtain ⟨-, bounds⟩ := numbers_spec (id + 1) body
    rw [size] at high ⊢
    by_cases top : i = id
    · subst top
      refine ⟨.inl ⟨by simp, by rw [own]⟩, ?_, ?_⟩
      · rw [own]
        exact nodup_numbers _ _
      · rw [own]
        intro c member
        have := bounds c member
        refine ⟨by omega, by omega, members c member⟩
    · have rest := inside.linksInside i (by omega) (by omega)
      refine ⟨.inr ?_, rest.nodup, fun c member => ?_⟩
      · rcases rest.parent with ⟨member, link⟩ | ⟨p, link, after, before, listed⟩
        · exact ⟨id, link, Nat.le_refl _, by omega, by rw [own]; exact member⟩
        · exact ⟨p, link, by omega, before, listed⟩
      · obtain ⟨later, bound, link⟩ := rest.body c member
        exact ⟨later, by omega, link⟩

theorem LaidOutAll.linksInside {get : NodeId → Slot} {next : Nat} {parent : Option NodeId} :
    ∀ {os : List Outline}, LaidOutAll get next parent os →
      ∀ i : Nat, next ≤ i → i < next + sizeAll os →
        LinksInside get next (next + sizeAll os) parent (numbers next os) i
  | [], _, i, low, high => by
    rw [sizeAll] at high
    omega
  | o :: rest, h, i, low, high => by
    obtain ⟨first, later⟩ := h
    rw [sizeAll] at high ⊢
    rw [numbers]
    by_cases here : i < next + o.size
    · have links := first.linksInside i low here
      refine ⟨?_, links.nodup, fun c member => ?_⟩
      · rcases links.parent with ⟨top, link⟩ | inner
        · exact .inl ⟨by simpa using .inl (List.mem_singleton.1 top), link⟩
        · exact .inr inner
      · obtain ⟨after, bound, link⟩ := links.body c member
        exact ⟨after, by omega, link⟩
    · have links := later.linksInside i (by omega) (by omega)
      refine ⟨?_, links.nodup, fun c member => ?_⟩
      · rcases links.parent with ⟨top, link⟩ | ⟨p, link, low', before, listed⟩
        · exact .inl ⟨List.mem_cons_of_mem _ top, link⟩
        · exact .inr ⟨p, link, by omega, before, listed⟩
      · obtain ⟨after, bound, link⟩ := links.body c member
        exact ⟨after, by omega, link⟩

end

end Outline

namespace Tree

variable {t : Tree}

theorem slots_graft (o : Outline) :
    (t.graft o).1.slots = t.slots ++ (o.slots t.size none).toArray :=
  Array.ext' (by simp [graft])

@[simp]
theorem size_graft (o : Outline) : (t.graft o).1.size = t.size + o.size := by
  simp [size, slots_graft]

theorem slot_graft_of_lt (o : Outline) {i : NodeId} (h : i < t.size) :
    (t.graft o).1.slot i = t.slot i := by
  have inside : i < t.slots.size := h
  rw [slot, slots_graft, Array.getElem?_append_left inside, slot]

theorem laidOut_graft (o : Outline) : o.LaidOut (t.graft o).1.slot t.size none := by
  refine Outline.laidOut_of_slots fun i s found => ?_
  have after : t.slots.size ≤ t.size + i := Nat.le_add_right _ _
  have back : t.size + i - t.slots.size = i := Nat.add_sub_cancel_left _ _
  rw [slot, slots_graft, Array.getElem?_append_right after, back, List.getElem?_toArray, found]
  rfl

/-- What a graft leaves in a slot: what was there, a slot of the new block, or nothing. -/
theorem slot_graft_cases (o : Outline) (i : Nat) :
    (i < t.size ∧ (t.graft o).1.slot i = t.slot i) ∨
      (t.size ≤ i ∧ Outline.LinksInside (t.graft o).1.slot t.size (t.size + o.size) none [t.size] i) ∨
      (t.graft o).1.slot i = default := by
  rcases Nat.lt_or_ge i t.size with below | low
  · exact .inl ⟨below, slot_graft_of_lt o below⟩
  rcases Nat.lt_or_ge i (t.size + o.size) with high | above
  · exact .inr (.inl ⟨low, (laidOut_graft o).linksInside i low high⟩)
  · exact .inr (.inr (slot_of_size_le (by simpa using above)))

/-- A link up is an old one, or it goes to an earlier slot of the block, which lists the node. -/
theorem parent_graft_cases (o : Outline) {c s : Nat} (link : (t.graft o).1.parent c = some s) :
    (c < t.size ∧ t.parent c = some s) ∨ (t.size ≤ c ∧ s < c ∧ c ∈ (t.graft o).1.body s) := by
  rw [Tree.parent] at link
  rcases slot_graft_cases o c with ⟨below, same⟩ | ⟨low, links⟩ | none
  · exact .inl ⟨below, by rwa [same] at link⟩
  · rcases links.parent with ⟨-, none⟩ | ⟨p, some, -, before, listed⟩
    · rw [none] at link
      cases link
    · obtain rfl := Option.some.inj (some.symm.trans link)
      exact .inr ⟨low, before, listed⟩
  · rw [none] at link
    cases link

/-- A listed node is one that was listed, or it stands in the block and names the scope. -/
theorem body_graft_cases (o : Outline) {s c : Nat} (listed : c ∈ (t.graft o).1.body s) :
    (s < t.size ∧ c ∈ t.body s) ∨
      (c < t.size + o.size ∧ (t.graft o).1.parent c = some s) := by
  rw [Tree.body] at listed
  rcases slot_graft_cases o s with ⟨below, same⟩ | ⟨-, links⟩ | none
  · exact .inl ⟨below, by rwa [same] at listed⟩
  · exact .inr (links.body c listed).2
  · rw [none] at listed
    cases listed

/-- Old slots keep their way up; inside the block the way up goes to smaller numbers. -/
theorem Linked.acyclic_graft (h : t.Linked) (o : Outline) :
    WellFounded (t.graft o).1.Encloses := by
  have old : ∀ i, i < t.size → Acc (t.graft o).1.Encloses i := by
    intro i
    induction i using h.acyclic.induction with
    | _ i ih =>
      intro below
      refine Acc.intro i fun p link => ?_
      rcases parent_graft_cases o link with ⟨-, kept⟩ | ⟨low, -⟩
      · exact ih p kept (h.scope_lt kept)
      · exact absurd below (Nat.not_lt.2 low)
  refine ⟨fun i => ?_⟩
  induction i using Nat.strongRecOn with
  | _ i ih =>
    refine Acc.intro i fun p link => ?_
    rcases parent_graft_cases o link with ⟨-, kept⟩ | ⟨-, before, -⟩
    · exact old p (h.scope_lt kept)
    · exact ih p before

/-- A grafted statement brings its own links and leaves the others alone. -/
theorem Linked.graft (h : t.Linked) (o : Outline) : (t.graft o).1.Linked := by
  have same : ∀ i : Nat, i < t.size → (t.graft o).1.slot i = t.slot i :=
    fun i inside => slot_graft_of_lt o inside
  refine ⟨?_, fun c s => ⟨fun link => ?_, fun listed => ?_⟩, fun s => ?_, fun s c listed => ?_, ?_,
    h.acyclic_graft o⟩
  · rw [size_graft]
    exact Nat.lt_of_lt_of_le h.root_lt (Nat.le_add_right _ _)
  · rcases parent_graft_cases o link with ⟨-, kept⟩ | ⟨-, -, listed⟩
    · rw [Tree.body, same s (h.scope_lt kept)]
      exact (h.parent_iff c s).1 kept
    · exact listed
  · rcases body_graft_cases o listed with ⟨-, kept⟩ | ⟨-, link⟩
    · rw [Tree.parent, same c (h.bounded s c kept)]
      exact (h.parent_iff c s).2 kept
    · exact link
  · rw [Tree.body]
    rcases slot_graft_cases o s with ⟨-, kept⟩ | ⟨-, links⟩ | none
    · rw [kept]
      exact h.nodup s
    · exact links.nodup
    · rw [none]
      exact List.nodup_nil
  · rw [size_graft]
    rcases body_graft_cases o listed with ⟨-, kept⟩ | ⟨bound, -⟩
    · exact Nat.lt_of_lt_of_le (h.bounded s c kept) (Nat.le_add_right _ _)
    · exact bound
  · rw [Tree.parent, same root h.root_lt]
    exact h.root_parent

end Tree

end InterfaceFile
