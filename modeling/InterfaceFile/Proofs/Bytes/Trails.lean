import InterfaceFile.Proofs.Bytes.Scripts
import InterfaceFile.Proofs.Spelling.Tracks

/-!
# Trails of readers

The outcome of a reader says where it stops if it succeeds, but not where it has been, and an error does
not even say how far it came. The trail of a script lists the cursors that it comes to, action by action
and also if it fails. It never goes back and never leaves the text.
-/

namespace InterfaceFile

variable {α β σ : Type} {c d : Cursor} {xs ys : List Cursor}

/-- The cursors that a reader comes to, one after the other: none lies before the one that precedes it,
    and the reader succeeds where it is last. -/
structure Reader.Follows (r : Reader α) (c : Cursor) (trail : List Cursor) : Prop where
  forward : (c :: trail).IsChain Cursor.Reaches
  last : ∀ a d, r c = .ok (a, d) → trail.getLastD c = d

/-- Further on in the text, and not past its end. -/
theorem Cursor.Reaches.bounds (h : c.Reaches d) :
    c.pos.offset ≤ d.pos.offset ∧ d.pos.offset ≤ (c.pos.after c.rest).offset := by
  obtain ⟨read, whole, eq⟩ := h
  have there : d.pos = c.pos.after read := congrArg Cursor.pos eq
  simp only [there, whole, Position.after_append, Position.offset_after]
  omega

namespace Reader

theorem Follows.inside {r : Reader α} (h : Follows r c xs) (member : d ∈ xs) : c.Reaches d := by
  have trans : IsTrans Cursor Cursor.Reaches := ⟨fun _ _ _ => Cursor.Reaches.trans⟩
  exact List.rel_of_pairwise_cons h.forward.pairwise member

/-- Where one action leads to. -/
def after (r : Reader α) (c : Cursor) : List Cursor :=
  match r c with
  | .ok (_, d) => [d]
  | .error _ => []

theorem Follows.after {r : Reader α} (h : Forward r) (c : Cursor) : Follows r c (r.after c) := by
  unfold Reader.after
  split
  · next a d run =>
    refine ⟨.cons_cons (h c a d run).1 (.singleton d), fun a' d' run' => ?_⟩
    cases run.symm.trans run'
    rfl
  · next e run => exact ⟨.singleton c, fun a d run' => by cases run.symm.trans run'⟩

theorem Follows.fails {r : Reader α} {e : ReadError} (run : r c = .error e)
    (forward : (c :: xs).IsChain Cursor.Reaches) : Follows r c xs :=
  ⟨forward, fun a d run' => by cases run.symm.trans run'⟩

theorem isChain_append (h : (c :: xs).IsChain Cursor.Reaches)
    (k : (xs.getLastD c :: ys).IsChain Cursor.Reaches) : (c :: (xs ++ ys)).IsChain Cursor.Reaches := by
  induction xs generalizing c with
  | nil => exact k
  | cons x xs ih =>
    rw [List.isChain_cons_cons] at h
    rw [List.getLastD_cons] at k
    exact .cons_cons h.1 (ih h.2 k)

theorem getLastD_append : (xs ++ ys).getLastD c = ys.getLastD (xs.getLastD c) := by
  induction xs generalizing c with
  | nil => rfl
  | cons x xs ih => rw [List.cons_append, List.getLastD_cons, List.getLastD_cons, ih]

/-- A trail goes on where the one before it stops. -/
theorem Follows.append {r : Reader α} {s : Reader β} {a : α} (h : Follows r c xs)
    (run : r c = .ok (a, d)) (k : Follows s d ys) : (c :: (xs ++ ys)).IsChain Cursor.Reaches ∧
      ∀ b e, s d = .ok (b, e) → (xs ++ ys).getLastD c = e := by
  have stops := h.last a d run
  refine ⟨isChain_append h.forward (stops ▸ k.forward), fun b e run' => ?_⟩
  rw [getLastD_append, stops]
  exact k.last b e run'

theorem Follows.loop {step : σ → Reader (Turn σ β)} {progress : ∀ s, Moves Turn.IsAgain (step s)}
    {turn : σ → Cursor → List Cursor} (h : ∀ s c, Follows (step s) c (turn s c)) (s : σ) (c : Cursor) :
    Follows (loop step progress s) c (alongLoop step progress turn s c) := by
  fun_induction alongLoop step progress turn s c with
  | case1 s c t d run ih =>
    obtain ⟨forward, last⟩ := (h s c).append run ih
    refine ⟨forward, fun b e whole => last b e ?_⟩
    change loopFrom step progress s c = _ at whole
    rwa [loopFrom_eq, run] at whole
  | case2 s c b d run =>
    refine ⟨(h s c).forward, fun b' e whole => (h s c).last (.done b') e ?_⟩
    change loopFrom step progress s c = _ at whole
    rw [loopFrom_eq, run] at whole
    cases whole
    exact run
  | case3 s c e run =>
    refine .fails (e := e) ?_ (h s c).forward
    change loopFrom step progress s c = _
    rw [loopFrom_eq, run]

end Reader

namespace Script

open Reader (Turn Moves Follows)

/-- The cursors that a script comes to after `c`. Raw text that has no end is read to the end of the
    text. -/
def trail {α : Type} {r : Reader α} : Script r → Cursor → List Cursor
  | @bind _ _ r _ first next, c =>
    match r c with
    | .ok (a, d) => first.trail c ++ (next a).trail d
    | .error _ => first.trail c
  | @ite _ _ _ cond _ yes no, c => if cond then yes.trail c else no.trail c
  | .rawText stop, c =>
    match Reader.rawText stop c with
    | .ok (_, d) => [d]
    | .error _ => [c.moveOver c.rest []]
  | @loop _ _ step progress turn s, c => Reader.alongLoop step progress (fun s => (turn s).trail) s c
  | .sliced inner _, c => inner.trail c
  | .noted inner _, c => inner.trail c
  | .same _ other, c => other.trail c
  | _, c => r.after c

/-- Every reader that is put together from single actions goes forward all the time, also if it fails. -/
theorem follows {r : Reader α} (script : Script r) (c : Cursor) : Follows r c (script.trail c) := by
  induction script generalizing c with
  | @bind _ _ r f first next ih ih' =>
    rw [trail]
    split
    · next a d run =>
      obtain ⟨forward, last⟩ := (ih c).append run (ih' a d)
      refine ⟨forward, fun b e whole => last b e ?_⟩
      rwa [Reader.bind_eq, run] at whole
    · next e run =>
      refine .fails (e := e) ?_ (ih c).forward
      rw [Reader.bind_eq, run]
      rfl
  | ite yes no ih ih' =>
    rw [trail]
    split
    · exact ih c
    · exact ih' c
  | rawText stop =>
    rw [trail]
    split
    · next a d run =>
      refine ⟨.cons_cons (Reader.moves_rawText stop c a d run).1 (.singleton d), fun a' d' run' => ?_⟩
      cases run.symm.trans run'
      rfl
    · next e run =>
      exact .fails run (.cons_cons (Cursor.reaches_moveOver (List.append_nil _).symm) (.singleton _))
  | loop turn s ih => exact .loop ih s c
  | sliced inner retakes ih => exact ih c
  | noted inner notes ih => exact ih c
  | same eq other ih => exact eq ▸ ih c
  | pure a => exact .after (Script.pure a).forward c
  | fail kind span => exact .after (Script.fail kind span).forward c
  | unexpected expected => exact .after (Script.unexpected expected).forward c
  | here => exact .after Script.here.forward c
  | locate start stop => exact .after (Script.locate start stop).forward c
  | look f => exact .after (Script.look f).forward c
  | continuesPath => exact .after Script.continuesPath.forward c
  | skipWhile p => exact .after (Script.skipWhile p).forward c
  | readWhile p => exact .after (Script.readWhile p).forward c
  | eat ch => exact .after (Script.eat ch).forward c
  | eatText nonempty => exact .after (Script.eatText nonempty).forward c
  | word? meaning => exact .after (Script.word? meaning).forward c

end Script

end InterfaceFile
