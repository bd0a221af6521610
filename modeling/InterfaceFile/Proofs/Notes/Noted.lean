import InterfaceFile.Proofs.Bytes.ScriptedFile

/-!
# What a reader notes

To say that nothing is lost on the way from the text to the tree one has to say what was read. A script says
where its reader comes to a comment, an empty line or a statement: these places are marked in it. The notes
of a script are collected along the run of its reader.
-/

namespace InterfaceFile

open Reader (Turn Moves Gives TurnOf)

variable {α β σ : Type}

namespace Script

/-- What a script notes from `c` on. -/
def notes {α : Type} {r : Reader α} : Script r → Cursor → List Note
  | @bind _ _ r _ first next, c =>
    match r c with
    | .ok (a, d) => first.notes c ++ (next a).notes d
    | .error _ => first.notes c
  | @ite _ _ _ cond _ yes no, c => if cond then yes.notes c else no.notes c
  | @loop _ _ step progress turn s, c => Reader.alongLoop step progress (fun s => (turn s).notes) s c
  | .sliced inner _, c => inner.notes c
  | @noted _ r inner notes, c =>
    match r c with
    | .ok (a, _) => inner.notes c ++ notes a
    | .error _ => inner.notes c
  | .same _ other, c => other.notes c
  | _, _ => []

/-- Nothing in the script is noted. -/
@[simp]
def Quiet {α : Type} {r : Reader α} : Script r → Prop
  | .bind first next => first.Quiet ∧ ∀ a, (next a).Quiet
  | @ite _ _ _ _ _ yes no => yes.Quiet ∧ no.Quiet
  | .loop turn _ => ∀ s, (turn s).Quiet
  | .sliced inner _ => inner.Quiet
  | .noted _ _ => False
  | .same _ other => other.Quiet
  | _ => True

theorem Quiet.notes_eq {r : Reader α} {script : Script r} (quiet : script.Quiet) (c : Cursor) :
    script.notes c = [] := by
  induction script generalizing c with
  | @bind _ _ r f first next ih ih' =>
    rw [notes, ih quiet.1]
    split
    · exact ih' _ (quiet.2 _) _
    · rfl
  | ite yes no ih ih' =>
    rw [notes, ih quiet.1, ih' quiet.2, ite_self]
  | @loop _ _ step progress turn s ih =>
    rw [notes]
    replace quiet : ∀ s, (turn s).Quiet := quiet
    fun_induction Reader.alongLoop step progress (fun s => (turn s).notes) s c with
    | case1 s c t d run ih' => rw [ih s (quiet s), ih', List.nil_append]
    | case2 s c b d run => exact ih s (quiet s) c
    | case3 s c e run => exact ih s (quiet s) c
  | sliced inner retakes ih => exact ih quiet c
  | noted inner notes ih => exact quiet.elim
  | same eq other ih => exact ih quiet c
  | _ => rfl

end Script

namespace Tree

/-- Reads declarations from a text, with notes of the comments and statements in reading order. -/
def parseNoting (source : String) (file : Option String) : Except ReadError (Tree × List Note) :=
  (parse source file).map fun t => (t, Script.file.notes (.ofText file source.toList))

end Tree

end InterfaceFile
