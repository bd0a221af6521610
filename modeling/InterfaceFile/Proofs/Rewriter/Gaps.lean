import InterfaceFile.Tree.Spacing
import Mathlib.Data.List.Infix
import Mathlib.Data.List.Perm.Basic

/-!
# Lines in gaps

Where lines are put into the gaps between neighbours, the statements stay in order and the lines are
taken from the front. So the same lines come back when the lines are taken out and put in again, as
long as the gaps are the same.
-/

namespace InterfaceFile

variable {α : Type} {gap gap' : α → α → Bool}

/-- A gap takes one line, and what is not a gap takes none. -/
theorem fillGaps_cons_cons (gap : α → α → Bool) (a b : α) (rest blanks : List α) :
    fillGaps gap (a :: b :: rest) blanks =
      a :: (blanks.take (if gap a b then 1 else 0) ++
        fillGaps gap (b :: rest) (blanks.drop (if gap a b then 1 else 0))) := by
  cases wide : gap a b with
  | true => cases blanks <;> simp [fillGaps, wide]
  | false => simp [fillGaps, wide]

/-- The statements and the lines that were used, and nothing else. -/
theorem fillGaps_perm (gap : α → α → Bool) :
    ∀ statements blanks : List α, (fillGaps gap statements blanks).Perm
      (statements ++ blanks.take (countGaps gap statements))
  | [], _ | [_], _ => by simp [fillGaps, countGaps]
  | a :: b :: rest, blanks => by
    have later := fillGaps_perm gap (b :: rest) (blanks.drop (if gap a b then 1 else 0))
    rw [fillGaps_cons_cons, countGaps, List.take_add]
    exact ((later.append_left _).trans (List.perm_append_comm_assoc _ _ _)).cons a

variable {p : α → Bool}

/-- The statements stand as before if the lines are left out. -/
theorem filter_fillGaps (gap : α → α → Bool) : ∀ {statements blanks : List α},
    (∀ a ∈ statements, p a = true) → (∀ a ∈ blanks, p a = false) →
    (fillGaps gap statements blanks).filter p = statements
  | [], _, _, _ => rfl
  | [a], _, proper, _ => List.filter_eq_self.2 proper
  | a :: b :: rest, blanks, proper, empty => by
    obtain ⟨here, after⟩ := List.forall_mem_cons.1 proper
    have none : (blanks.take (if gap a b then 1 else 0)).filter p = [] := by
      apply List.filter_eq_nil_iff.2
      intro a member
      simp [empty a (List.mem_of_mem_take member)]
    rw [fillGaps_cons_cons, List.filter_cons_of_pos here, List.filter_append, none,
      filter_fillGaps gap after fun a member => empty a (List.mem_of_mem_drop member)]
    rfl

/-- The lines that are used are the first ones, in order. -/
theorem filter_not_fillGaps (gap : α → α → Bool) : ∀ {statements blanks : List α},
    (∀ a ∈ statements, p a = true) → (∀ a ∈ blanks, p a = false) →
    (fillGaps gap statements blanks).filter (fun a => !p a) =
      blanks.take (countGaps gap statements)
  | [], _, _, _ => by simp [fillGaps, countGaps]
  | [a], _, proper, _ => by simp [fillGaps, countGaps, proper a List.mem_cons_self]
  | a :: b :: rest, blanks, proper, empty => by
    obtain ⟨here, after⟩ := List.forall_mem_cons.1 proper
    have all : (blanks.take (if gap a b then 1 else 0)).filter (fun a => !p a) =
        blanks.take (if gap a b then 1 else 0) := by
      apply List.filter_eq_self.2
      intro a member
      simp [empty a (List.mem_of_mem_take member)]
    rw [fillGaps_cons_cons, List.filter_cons_of_neg (by simp [here]), List.filter_append, all,
      filter_not_fillGaps gap after fun a member => empty a (List.mem_of_mem_drop member), countGaps,
      List.take_add]

/-- Lines that find no gap do not matter. -/
theorem fillGaps_take (gap : α → α → Bool) : ∀ statements blanks : List α,
    fillGaps gap statements (blanks.take (countGaps gap statements)) =
      fillGaps gap statements blanks
  | [], _ | [_], _ => rfl
  | a :: b :: rest, blanks => by
    have later := fillGaps_take gap (b :: rest) (blanks.drop (if gap a b then 1 else 0))
    rw [fillGaps_cons_cons, fillGaps_cons_cons, countGaps, List.take_take,
      Nat.min_eq_left (Nat.le_add_right _ _), List.drop_take, Nat.add_sub_cancel_left, later]

/-- Only neighbours matter. -/
theorem fillGaps_congr : ∀ {statements : List α},
    (∀ a b, [a, b] <:+: statements → gap a b = gap' a b) → ∀ blanks,
      fillGaps gap statements blanks = fillGaps gap' statements blanks ∧
        countGaps gap statements = countGaps gap' statements
  | [], _, _ | [_], _, _ => ⟨rfl, rfl⟩
  | a :: b :: rest, same, blanks => by
    have here : gap a b = gap' a b := same a b ⟨[], rest, rfl⟩
    have later := fillGaps_congr (fun c d inside => same c d (List.infix_cons inside))
      (blanks.drop (if gap' a b then 1 else 0))
    rw [fillGaps_cons_cons, fillGaps_cons_cons, countGaps, countGaps, here, later.1, later.2]
    exact ⟨rfl, rfl⟩

/-- Gaps that close are missed in the count. -/
theorem countGaps_le : ∀ {statements : List α},
    (∀ a b, [a, b] <:+: statements → gap' a b = true → gap a b = true) →
      countGaps gap' statements ≤ countGaps gap statements
  | [], _ | [_], _ => Nat.le_refl _
  | a :: b :: rest, fewer => by
    have later := countGaps_le fun c d inside => fewer c d (List.infix_cons inside)
    have here := fewer a b ⟨[], rest, rfl⟩
    rw [countGaps, countGaps]
    cases open' : gap' a b with
    | true => simpa [here open'] using later
    | false =>
      simp only [Bool.false_eq_true, if_false, Nat.zero_add]
      exact Nat.le_trans later (Nat.le_add_left _ _)

theorem countGaps_lt {a b : α} (wide : gap a b = true) (narrow : gap' a b = false) :
    ∀ {statements : List α}, [a, b] <:+: statements →
      (∀ a b, [a, b] <:+: statements → gap' a b = true → gap a b = true) →
        countGaps gap' statements < countGaps gap statements
  | [], neighbours, _ | [_], neighbours, _ => by
    have short := neighbours.length_le
    simp at short
  | c :: d :: rest, neighbours, fewer => by
    have inTail : ∀ x y, [x, y] <:+: d :: rest → gap' x y = true → gap x y = true :=
      fun x y inside => fewer x y (List.infix_cons inside)
    rw [countGaps, countGaps]
    rcases List.infix_cons_iff.1 neighbours with first | inside
    · obtain ⟨rest', split⟩ := first
      obtain ⟨rfl, rfl, -⟩ : a = c ∧ b = d ∧ rest' = rest := by simpa using split
      have later := countGaps_le inTail
      simp only [wide, narrow, Bool.false_eq_true, if_false, if_true]
      omega
    · have later := countGaps_lt wide narrow inside inTail
      have here := fewer c d ⟨[], rest, rfl⟩
      cases open' : gap' c d with
      | true => simpa [here open'] using later
      | false =>
        simp only [Bool.false_eq_true, if_false, Nat.zero_add]
        exact Nat.lt_of_lt_of_le later (Nat.le_add_left _ _)

end InterfaceFile
