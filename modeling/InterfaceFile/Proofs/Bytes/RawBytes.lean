import InterfaceFile.Proofs.Bytes.LongSources
import InterfaceFile.Proofs.Reader.BalancedText

/-!
# Raw text on bytes

What a reader takes as raw text in a source, at any offset that is the edge of a character. The text is cut
out between two offsets of 32 bits, so a source has to be shorter than 2³² bytes.
-/

namespace InterfaceFile

open String (utf8Len utf8Len_append utf8Len_toList)

variable {source : String} {front rest : List Char}

/-- A reader that has gone through a part of the source. -/
theorem Cursor.reaches_of_split (split : source.toList = front ++ rest) :
    (ofText none source.toList).Reaches ⟨none, Position.after {} front, rest⟩ :=
  reaches_moveOver split

theorem Bytes.rawText_of_split (short : source.utf8ByteSize < 2 ^ 32)
    (split : source.toList = front ++ rest) (stop : Char → Bool) :
    rawText source stop (utf8Len front) =
      some (.ofReader (Reader.rawText stop ⟨none, Position.after {} front, rest⟩)) := by
  have run := rawText_eq (Cursor.reaches_of_split split) short stop
  rwa [Position.offset_after, Nat.zero_add] at run

/-- In a source of less than 2³² bytes raw text is always read or refused. It is the balanced text that ends
    where the source does, or before a stop character or a closing bracket, and no other balanced text goes
    further. If there is none the reader fails, at a literal that is not closed, from its quote to the end of
    the source, or at the innermost bracket that is open there. -/
theorem raw_text_is_exact_and_maximal (stop : Char → Bool) (short : source.utf8ByteSize < 2 ^ 32)
    (split : source.toList = front ++ rest) :
    (Bytes.rawText source stop (utf8Len front)).isSome = true ∧
    (∀ r n, Bytes.rawText source stop (utf8Len front) = some (.ok (r, n)) ↔
      ∃ read more, rest = read ++ more ∧ Balanced stop read ∧ EndsBefore stop more ∧
        r = String.ofList (Text.trim read) ∧ n = utf8Len front + utf8Len read) ∧
    (∀ read more, rest = read ++ more → Balanced stop read → EndsBefore stop more →
      ∀ other more', rest = other ++ more' → Balanced stop other → other <+: read) ∧
    ∀ e, Bytes.rawText source stop (utf8Len front) = some (.error e) ↔
      Unfinished stop (Position.after {} front) rest e := by
  rw [Bytes.rawText_of_split short split stop]
  have offset : ∀ read more, (Cursor.moveOver ⟨none, Position.after {} front, rest⟩ read more).pos.offset =
      utf8Len front + utf8Len read := by
    intro read more
    rw [Cursor.moveOver, Position.offset_after, Position.offset_after, Nat.zero_add]
  refine ⟨rfl, fun r n => ?_,
    fun _ _ whole balanced ends _ _ same other => balanced.isPrefix ends other (same.symm.trans whole),
    fun e => ?_⟩
  · rw [Option.some_inj, ByteOutcome.ofReader_eq_ok]
    constructor
    · rintro ⟨d, taken, rfl⟩
      obtain ⟨read, more, whole, balanced, ends, text, rfl⟩ := Reader.rawText_eq_ok.1 taken
      exact ⟨read, more, whole, balanced, ends, text, offset read more⟩
    · rintro ⟨read, more, whole, balanced, ends, rfl, rfl⟩
      exact ⟨_, Reader.rawText_eq_ok.2 ⟨read, more, whole, balanced, ends, rfl, rfl⟩, offset read more⟩
  · rw [Option.some_inj, ByteOutcome.ofReader_eq_error]
    exact Reader.rawText_eq_error

/-- A bracket is read with what stands in it, up to the comma. -/
theorem raw_text_is_exact_and_maximal_secondArgument :
    Bytes.rawText "é, (a, b), c" (fun c => c = ',') (utf8Len ['é', ',']) = some (.ok ("(a, b)", 10)) := by
  have inside : Balanced (fun _ => false) "a, b".toList :=
    .char (.char (.char (.char .nil rfl rfl) rfl rfl) rfl rfl) rfl rfl
  have balanced : Balanced (fun c => decide (c = ',')) " (a, b)".toList :=
    .bracket (.char .nil rfl rfl) rfl rfl inside rfl
  have short : "é, (a, b), c".utf8ByteSize < 2 ^ 32 := by decide
  have split : "é, (a, b), c".toList = ['é', ','] ++ " (a, b), c".toList := rfl
  have read := raw_text_is_exact_and_maximal (fun c => c = ',') short split
  exact (read.2.1 _ _).2 ⟨" (a, b)".toList, ", c".toList, rfl, balanced, by simp [EndsBefore], rfl, rfl⟩

/-- Behind 2³² bytes the text is cut out of another place. -/
theorem Bytes.rawText_far {n : Nat} (far : n = 2 ^ 32) :
    rawText (String.ofList (List.replicate n ' ' ++ ['A'])) (fun _ => false)
      (utf8Len (List.replicate n ' ')) = some (.ok ("", n + 1)) := by
  have unread : rest? (String.ofList (List.replicate n ' ' ++ ['A'])) (utf8Len (List.replicate n ' ')) =
      some (String.ofList ['A']) := Span.slice?_from String.toList_ofList
  have begins : (String.ofList (List.replicate n ' ' ++ ['A'])).toList =
      [' '] ++ (List.replicate (n - 1) ' ' ++ ['A']) := by
    rw [String.toList_ofList, spaces_eq (by rw [far]; decide), List.append_assoc]
  have first : kept n = 0 := by rw [far]; rfl
  have second : kept (n + 1) = utf8Len [' '] := by rw [far]; rfl
  have text : textFor? (String.ofList (List.replicate n ' ' ++ ['A'])) n (n + 1) =
      some (String.ofList [' ']) := by
    rw [textFor?, first, second]
    exact Span.slice?_upTo begins
  have taken : takeRaw (fun _ => false) {} [] { offset := n } ['A'] =
      .ok (['A'], [], ⟨n + 1, ⟨1, 1⟩⟩) := rfl
  rw [utf8Len_spaces] at unread
  simp only [utf8Len_spaces, rawText, unread, Option.bind_eq_bind, Option.bind_some,
    String.toList_ofList, taken, text]
  rfl

/-- Without the bound it is not so: behind 2³² spaces stands `A`, and nothing is read. -/
theorem raw_text_is_not_exact_behind_4_gib :
    ¬ ∀ r n, Bytes.rawText (String.ofList (List.replicate (2 ^ 32) ' ' ++ ['A'])) (fun _ => false)
        (utf8Len (List.replicate (2 ^ 32) ' ')) = some (.ok (r, n)) ↔
      ∃ read more, ['A'] = read ++ more ∧ Balanced (fun _ => false) read ∧
        EndsBefore (fun _ => false) more ∧ r = String.ofList (Text.trim read) ∧
        n = utf8Len (List.replicate (2 ^ 32) ' ') + utf8Len read := by
  intro exact_
  have taken := (exact_ "A" _).2 ⟨['A'], [], rfl, .char .nil rfl rfl, nofun, rfl, rfl⟩
  rw [Bytes.rawText_far rfl] at taken
  have texts := congrArg Prod.fst (Except.ok.inj (Option.some.inj taken))
  exact absurd texts (by decide)

end InterfaceFile
