import InterfaceFile.Proofs.Spelling.Tracks

/-!
# Rounds of loops

What going round with a step comes to, as a relation that nothing bounds: neither fuel nor the proof
of progress that a loop carries is part of it. A loop ends if there is such a run for every state and
every cursor, and the unread text says how many turns it can have.
-/

namespace InterfaceFile.Reader

variable {σ β : Type} {step : σ → Reader (Turn σ β)} {s : σ} {c : Cursor} {m n : Nat}
  {o o' : Except ReadError (β × Cursor)}

/-- Going round with a step from `s` at `c` on ends after `n` turns, with the outcome `o`. -/
inductive Rounds (step : σ → Reader (Turn σ β)) :
    σ → Cursor → Nat → Except ReadError (β × Cursor) → Prop
  | fail {s : σ} {c : Cursor} {e : ReadError} (turn : step s c = .error e) :
      Rounds step s c 1 (.error e)
  | done {s : σ} {c d : Cursor} {b : β} (turn : step s c = .ok (.done b, d)) :
      Rounds step s c 1 (.ok (b, d))
  | again {s t : σ} {c d : Cursor} {n : Nat} {o : Except ReadError (β × Cursor)}
      (turn : step s c = .ok (.again t, d)) (more : Rounds step t d n o) :
      Rounds step s c (n + 1) o

theorem Rounds.unique (h : Rounds step s c m o) (k : Rounds step s c n o') : m = n ∧ o = o' := by
  induction h generalizing n with
  | fail turn =>
    cases k with
    | fail turn' => cases turn.symm.trans turn'; exact ⟨rfl, rfl⟩
    | done turn' => cases turn.symm.trans turn'
    | again turn' => cases turn.symm.trans turn'
  | done turn =>
    cases k with
    | fail turn' => cases turn.symm.trans turn'
    | done turn' => cases turn.symm.trans turn'; exact ⟨rfl, rfl⟩
    | again turn' => cases turn.symm.trans turn'
  | again turn _ ih =>
    cases k with
    | fail turn' => cases turn.symm.trans turn'
    | done turn' => cases turn.symm.trans turn'
    | again turn' more =>
      cases turn.symm.trans turn'
      obtain ⟨rfl, rfl⟩ := ih more
      exact ⟨rfl, rfl⟩

/-- A loop is a run, and each of its turns but the last takes a character. -/
theorem exists_rounds_loop (progress : ∀ s, Moves Turn.IsAgain (step s)) (s : σ) (c : Cursor) :
    ∃ n ≤ c.rest.length + 1, Rounds step s c n (loop step progress s c) := by
  change ∃ n ≤ c.rest.length + 1, Rounds step s c n (loopFrom step progress s c)
  fun_induction loopFrom step progress s c with
  | case1 s c e turn => exact ⟨1, Nat.le_add_left 1 _, .fail turn⟩
  | case2 s c b d turn => exact ⟨1, Nat.le_add_left 1 _, .done turn⟩
  | case3 s c t d turn ih =>
    obtain ⟨n, bound, more⟩ := ih
    have less := (progress s c _ d turn).2 trivial
    exact ⟨n + 1, by omega, .again turn more⟩

/-- Wherever the loop over a step is started it ends, and its outcome is the only one that going round
    has. The measure is the unread text: each turn after which there is another one makes it shorter,
    so that its length bounds the turns before the last. -/
structure EndsInTime (step : σ → Reader (Turn σ β)) (progress : ∀ s, Moves Turn.IsAgain (step s)) :
    Prop where
  shorter : ∀ s c t d, step s c = .ok (.again t, d) → d.rest.length < c.rest.length
  rounds : ∀ s c, ∃ n ≤ c.rest.length + 1, ∀ m o,
    Rounds step s c m o ↔ m = n ∧ o = loop step progress s c

theorem endsInTime (step : σ → Reader (Turn σ β)) (progress : ∀ s, Moves Turn.IsAgain (step s)) :
    EndsInTime step progress where
  shorter s c _ d turn := (progress s c _ d turn).2 trivial
  rounds s c := by
    obtain ⟨n, bound, run⟩ := exists_rounds_loop progress s c
    refine ⟨n, bound, fun m o => ⟨fun other => other.unique run, ?_⟩⟩
    rintro ⟨rfl, rfl⟩
    exact run

/-! ## Arguments -/

/-- Has the turn of a loop over arguments accepted one more than those there were? -/
def Accepts (args : List String) : Turn (List String) (List String) → Prop
  | .again more => args.length < more.length
  | .done all => args.length < all.length

theorem moves_bareArgsStep_accepts (args : List String) :
    Moves (Accepts args) (bareArgsStep args) :=
  forward_skipSpaces.andThen fun _ => (forward_look _).andThen fun _ => .ite
    (moves_pure (by simp [Accepts]))
    ((advances_someText _ _).start fun _ => (moves_eat _).branch (forward_pure _) (forward_pure _))

end InterfaceFile.Reader
