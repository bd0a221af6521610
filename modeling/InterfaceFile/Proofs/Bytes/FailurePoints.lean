import InterfaceFile.Proofs.Bytes.ScriptedFile
import InterfaceFile.Proofs.Bytes.Trails
import InterfaceFile.Proofs.Reader.Between

/-!
# Where reading fails

On the bytes of a source of less than 2³² bytes there always is a tree or an error: every slice that is taken
lies inside the source and between characters, and so does every other text between two places that the
reading comes to. The span of the error does so too.
-/

namespace InterfaceFile

open Cursor (ofText)

/-- What has been read between two places is a slice of the source. -/
theorem Cursor.Reaches.textFor? {source : String} {file : Option String} {c d : Cursor}
    (start : (ofText file source.toList).Reaches c) (h : c.Reaches d)
    (short : source.utf8ByteSize < 2 ^ 32) :
    (Bytes.textFor? source c.pos.offset d.pos.offset).isSome = true := by
  obtain ⟨read, whole, eq⟩ := h
  rw [eq, moveOver, Position.offset_after, Bytes.textFor?_eq start short whole]
  rfl

/-- Every source of less than 2³² bytes is read to a tree or to an error, with every slice inside the source
    and between characters, and so is the span of the error. -/
theorem failures_point_inside {source : String} (file : Option String)
    (short : source.utf8ByteSize < 2 ^ 32) :
    Tree.parseBytes? source file = some (Tree.parse source file) ∧
    (ofText file source.toList :: Script.file.trail (ofText file source.toList)).Pairwise
      (fun c d => (Bytes.textFor? source c.pos.offset d.pos.offset).isSome = true) ∧
    ∀ e, Tree.parse source file = .error e →
      e.span.start ≤ e.span.stop ∧ e.span.stop ≤ source.utf8ByteSize ∧
        (⟨e.span.start⟩ : String.Pos.Raw).IsValid source ∧
        (⟨e.span.stop⟩ : String.Pos.Raw).IsValid source := by
  refine ⟨Tree.parseBytes?_eq file short, ?_, fun e failed => ?_⟩
  · have follows := Script.file.follows (ofText file source.toList)
    have trans : IsTrans Cursor Cursor.Reaches := ⟨fun _ _ _ => Cursor.Reaches.trans⟩
    have pairs := follows.forward.pairwise
    refine pairs.imp_of_mem fun {c d} member _ further => ?_
    rcases List.mem_cons.1 member with rfl | inside
    · exact Cursor.Reaches.textFor? (.refl _) further short
    · exact (follows.inside inside).textFor? further short
  · have inside := (Reader.points_file.error e (Reader.run_eq_error.1 failed)).inside
    exact ⟨inside.forwards, inside.stop_le, inside.start, inside.stop⟩

/-- A letter of two bytes that begins no declaration, after a space. -/
theorem failures_point_inside_accent :
    Tree.parse " é" none = .error ⟨.unexpected .declaration (.text "é"), ⟨1, 3⟩⟩ ∧
    Tree.parseBytes? " é" none = some (Tree.parse " é" none) ∧
    (⟨1⟩ : String.Pos.Raw).IsValid " é" ∧ (⟨3⟩ : String.Pos.Raw).IsValid " é" := by
  have first : Reader.fileStep {} ⟨none, {}, [' ', 'é']⟩ =
      .error ⟨.unexpected .declaration (.text "é"), ⟨1, 3⟩⟩ := by rfl
  have loops : Reader.loop Reader.fileStep Reader.moves_fileStep {} (.ofText none [' ', 'é']) =
      .error ⟨.unexpected .declaration (.text "é"), ⟨1, 3⟩⟩ := by
    change Reader.loopFrom _ _ _ _ = _
    rw [Reader.loopFrom]
    split
    · next run =>
      cases run.symm.trans first
      rfl
    · next run => cases run.symm.trans first
    · next run => cases run.symm.trans first
  have failed : Tree.parse " é" none = .error ⟨.unexpected .declaration (.text "é"), ⟨1, 3⟩⟩ :=
    Reader.run_eq_error.2 <|
      Reader.bind_eq_error.2 (.inr ⟨none, _, rfl, Reader.bind_eq_error.2 (.inl loops)⟩)
  have holds := failures_point_inside none (by decide : " é".utf8ByteSize < 2 ^ 32)
  obtain ⟨-, -, starts, stops⟩ := holds.2.2 _ failed
  exact ⟨failed, holds.1, starts, stops⟩

end InterfaceFile
