import InterfaceFile.Proofs.Bytes.ScriptedFile

/-!
# Long sources

From 2³² bytes on spans wrap around, and the texts that they cut out stand somewhere else in the source. Here
such sources are read: empty lines and, on the last line, the constant `A`. Where `A` is the first byte with a
wrapped offset, its name is the first byte of the source.

The number of spaces in front is a variable throughout, so that no source is ever written out.
-/

namespace InterfaceFile

open String (utf8Len utf8Len_append utf8Len_toList)

variable {α : Type} {source : String} {file : Option String} {front run rest : List Char}
  {os : List Outline} {name : String} {start stop : Place} {n o p : Nat}

/-- An empty line that has been read. -/
def blankAt (loc : Location) : Outline :=
  .mk { Node.blank with loc } []

/-- A constant that has been read. -/
def constantAt (name : String) (loc : Location) : Outline :=
  .mk { decl := .const { name }, loc } []

/-- A line of spaces. -/
def spaceLine (n : Nat) : String :=
  String.ofList (List.replicate n ' ' ++ ['\n'])

theorem utf8Len_spaces (n : Nat) : utf8Len (List.replicate n ' ') = n := by
  induction n with
  | zero => rfl
  | succ n ih => rw [List.replicate_succ, String.utf8Len_cons, ih]; rfl

theorem spaces_eq (some : 0 < n) : List.replicate n ' ' = [' '] ++ List.replicate (n - 1) ' ' := by
  cases n with
  | zero => cases some
  | succ n => rfl

theorem not_header_of_spaces (some : 0 < n) :
    "# typed:".toList.isPrefixOf (List.replicate n ' ' ++ rest) = false := by
  rw [spaces_eq some]
  rfl

theorem isLineSpace_of_mem_spaces : ∀ c ∈ List.replicate n ' ', isLineSpace c = true :=
  fun c listed => by rw [List.eq_of_mem_replicate listed]; rfl

namespace Bytes

theorem here_of_lineCol? (found : lineCol? source (kept o) = some start) :
    here source o = some (.ok (⟨kept o, start⟩, o)) := by
  simp [here, found]

/-- The one character `A` that is left is a word. -/
theorem word?_of_lastA (unread : rest? source o = some (String.ofList ['A']))
    (meaning : List Char → List Char → Option α) :
    word? source meaning o = some (.ok (match meaning ['A'] [] with
      | some a => (some a, o + 1)
      | none => (none, o))) :=
  word?_of_rest? unread meaning

end Bytes

namespace Script

open Bytes

/-! ## Single lines -/

theorem exec_skipSpaces (split : source.toList = front ++ (run ++ rest))
    (spaces : ∀ c ∈ run, isLineSpace c = true) (stops : Stops isLineSpace rest) :
    skipSpaces.exec source file (utf8Len front) = some (.ok ((), utf8Len (front ++ run))) := by
  have unread : rest? source (utf8Len front) = some (String.ofList (run ++ rest)) :=
    Span.slice?_from split
  have taken : (run ++ rest).takeWhile isLineSpace = run := by
    rw [List.takeWhile_append_of_pos spaces, stops.takeWhile_eq, List.append_nil]
  rw [utf8Len_append]
  refine (skipWhile_of_rest? unread isLineSpace).trans ?_
  rw [taken]

/-- An empty line, or one of spaces. -/
theorem exec_emptyLine {f : OpenFile} (unread : rest? source o = some (String.ofList ('\n' :: rest)))
    (skipped : skipSpaces.exec source file p = some (.ok ((), o)))
    (began : lineCol? source (kept o) = some start) :
    (fileStep f).exec source file p = some (.ok
      (.again { f with statements := blankAt ⟨file, start, start⟩ :: f.statements }, o + 1)) := by
  have size : '\n'.utf8Size = 1 := rfl
  simp [fileStep, exec, skipped, ByteOutcome.andThen, here_of_lineCol? began, eat_of_rest? unread, size,
    blankAt]

section LastA

variable (unread : rest? source o = some (String.ofList ['A']))
  (left : rest? source (o + 1) = some (String.ofList []))
  (text : textFor? source o (o + 1) = some name)

include unread left text

/-- The name of a constant is the text between the offsets. -/
theorem exec_lastA :
    statement.exec source file o = some (.ok (.leaf (.const { name }) [], o + 1)) := by
  have path : Bytes.loop (fun path => (pathStep path).exec source file) (source.utf8ByteSize + 1) [] o =
      some (.ok ("A", o + 1)) := by
    refine loop_done ?_
    simp [exec, pathStep, word?_of_lastA unread, ByteOutcome.andThen, Bytes.continuesPath, left,
      startsUpper]
  have constant : constant.exec source file o = some (.ok (.leaf (.const { name }) [], o + 1)) := by
    simp [constant, constantName, exec, eatText_of_rest? unread, ByteOutcome.andThen, path, retaken, text,
      skipSpaces, skipWhile_of_rest? left, look_of_rest? left, eat_of_rest? left]
  have keyword : Keyword.ofWord? (String.ofList ['A']) = none := rfl
  have field : StructField.ofWord? ['A'] [] = none := rfl
  have upper : startsUpper ['A'] = true := rfl
  simp [statement, plainStatement, exec, word?_of_lastA unread, ByteOutcome.andThen, keyword, field,
    look_of_rest? unread, upper, constant]

theorem exec_lastA_line (os : List Outline)
    (skipped : skipSpaces.exec source file p = some (.ok ((), o)))
    (began : lineCol? source (kept o) = some start)
    (ended : lineCol? source (kept (o + 1)) = some stop) :
    (fileStep { statements := os }).exec source file p = some (.ok
      (.again { statements := constantAt name ⟨file, start, stop⟩ :: os }, o + 1)) := by
  have finished : finishLine.exec source file (o + 1) = some (.ok (none, o + 1)) := by
    simp [finishLine, remark?, bareRemark?, skipSpaces, exec, ByteOutcome.andThen,
      skipWhile_of_rest? left, here_of_lineCol? ended, eat_of_rest? left, look_of_rest? left]
  simp [fileStep, exec, skipped, ByteOutcome.andThen, here_of_lineCol? began, here_of_lineCol? ended,
    eat_of_rest? unread, remark?, bareRemark?, look_of_rest? unread, eatKeyword, word?_of_lastA unread,
    exec_lastA unread left text, closeStatement, closeLeaf, finished, addLeaf, Declaration.withSigs?,
    OpenFile.danglingSig?, OpenFile.waiting, OpenFile.await, check, OpenFile.add, constantAt]

end LastA

/-- The end of a source, with nothing open. -/
theorem exec_end (left : rest? source o = some (String.ofList []))
    (ended : lineCol? source (kept o) = some stop) :
    (fileStep { statements := os }).exec source file o = some (.ok (.done os.reverse, o)) := by
  simp [fileStep, skipSpaces, exec, skipWhile_of_rest? left, ByteOutcome.andThen, here_of_lineCol? ended,
    eat_of_rest? left, remark?, bareRemark?, look_of_rest? left, closeFile, OpenFile.dangling?,
    OpenFile.danglingSig?, check]

/-! ## Lines up to the end of a source -/

/-- Reads the lines from an offset on, in at most so many turns, after the statements `os`. -/
abbrev linesFrom (source : String) (file : Option String) (rounds : Nat) (os : List Outline) (o : Nat) :
    Option (ByteOutcome (List Outline)) :=
  Bytes.loop (fun f => (fileStep f).exec source file) rounds { statements := os } o

theorem linesFrom_emptyLine (split : source.toList = front ++ (run ++ '\n' :: rest))
    (spaces : ∀ c ∈ run, isLineSpace c = true) (near : utf8Len (front ++ run) < 2 ^ 32) :
    linesFrom source file (n + 1) os (utf8Len front) = linesFrom source file n
      (blankAt ⟨file, .afterText (front ++ run), .afterText (front ++ run)⟩ :: os)
      (utf8Len (front ++ run ++ ['\n'])) := by
  have skipped : skipSpaces.exec source file (utf8Len front) = some (.ok ((), utf8Len (front ++ run))) :=
    exec_skipSpaces split spaces (Stops.cons rfl)
  have pieces : source.toList = front ++ run ++ '\n' :: rest := by rw [split, List.append_assoc]
  have began := lineCol?_of_append pieces
  rw [← Nat.mod_eq_of_lt near] at began
  have after : utf8Len (front ++ run ++ ['\n']) = utf8Len (front ++ run) + 1 := by
    rw [utf8Len_append (front ++ run)]
    rfl
  rw [after]
  have turn := exec_emptyLine (f := { statements := os }) (Span.slice?_from pieces) skipped began
  exact loop_again turn

theorem linesFrom_end (ended : lineCol? source (kept source.utf8ByteSize) = some stop) :
    linesFrom source file (n + 1) os source.utf8ByteSize =
      some (.ok (os.reverse, source.utf8ByteSize)) :=
  loop_done (exec_end (by rw [← utf8Len_toList]; exact Span.slice?_from (List.append_nil _).symm) ended)

theorem linesFrom_lastA (split : source.toList = front ++ (run ++ ['A']))
    (spaces : ∀ c ∈ run, isLineSpace c = true)
    (text : textFor? source (utf8Len (front ++ run)) (utf8Len (front ++ run) + 1) = some name)
    (began : lineCol? source (kept (utf8Len (front ++ run))) = some start)
    (ended : lineCol? source (kept (utf8Len (front ++ run) + 1)) = some stop) :
    linesFrom source file (n + 2) os (utf8Len front) =
      some (.ok (os.reverse ++ [constantAt name ⟨file, start, stop⟩], source.utf8ByteSize)) := by
  have skipped : skipSpaces.exec source file (utf8Len front) = some (.ok ((), utf8Len (front ++ run))) :=
    exec_skipSpaces split spaces (Stops.cons rfl)
  have pieces : source.toList = front ++ run ++ ['A'] := by rw [split, List.append_assoc]
  have size : source.utf8ByteSize = utf8Len (front ++ run) + 1 := by
    rw [← utf8Len_toList, pieces, utf8Len_append]
    rfl
  have left : rest? source (utf8Len (front ++ run) + 1) = some (String.ofList []) := by
    rw [← size, ← utf8Len_toList]
    exact Span.slice?_from (List.append_nil _).symm
  have turn := exec_lastA_line (Span.slice?_from pieces) left text os skipped began ended
  rw [← size] at turn ended
  rw [linesFrom, loop_again turn, ← List.reverse_cons]
  exact linesFrom_end ended

/-- Where offsets do not wrap around, the constant has its name. -/
theorem linesFrom_lastA_near (split : source.toList = front ++ (run ++ ['A']))
    (spaces : ∀ c ∈ run, isLineSpace c = true) (near : utf8Len (front ++ run) + 1 < 2 ^ 32) :
    linesFrom source file (n + 2) os (utf8Len front) = some (.ok (os.reverse ++
      [constantAt "A" ⟨file, .afterText (front ++ run), .afterText (front ++ run ++ ['A'])⟩],
      source.utf8ByteSize)) := by
  have pieces : source.toList = front ++ run ++ ['A'] ++ [] := by simp [split]
  have size : utf8Len (front ++ run ++ ['A']) = utf8Len (front ++ run) + 1 := by
    rw [utf8Len_append]
    rfl
  have same : kept (utf8Len (front ++ run)) = utf8Len (front ++ run) := Nat.mod_eq_of_lt (by omega)
  have same' : kept (utf8Len (front ++ run) + 1) = utf8Len (front ++ run ++ ['A']) := by
    rw [size]
    exact Nat.mod_eq_of_lt near
  have text : textFor? source (utf8Len (front ++ run)) (utf8Len (front ++ run) + 1) = some "A" := by
    rw [textFor?, same, same']
    exact Span.slice?_of_append pieces
  have began := lineCol?_of_append (pieces.trans (List.append_assoc (front ++ run) _ _))
  have ended := lineCol?_of_append pieces
  rw [← same] at began
  rw [← same'] at ended
  exact linesFrom_lastA split spaces text began ended

/-- Where it stands behind 2³² bytes, its name is the first byte of the source. -/
theorem linesFrom_lastA_far (split : source.toList = front ++ (run ++ ['A']))
    (spaces : ∀ c ∈ run, isLineSpace c = true) (far : utf8Len (front ++ run) = 2 ^ 32)
    (begins : source.toList = [' '] ++ rest) :
    linesFrom source file (n + 2) os (utf8Len front) = some (.ok (os.reverse ++
      [constantAt " " ⟨file, .afterText [], .afterText [' ']⟩], source.utf8ByteSize)) := by
  have first : kept (utf8Len (front ++ run)) = utf8Len [] := by rw [far]; rfl
  have second : kept (utf8Len (front ++ run) + 1) = utf8Len [' '] := by rw [far]; rfl
  have text : textFor? source (utf8Len (front ++ run)) (utf8Len (front ++ run) + 1) = some " " := by
    rw [textFor?, first, second]
    exact Span.slice?_upTo begins
  have began := lineCol?_of_append (List.nil_append source.toList).symm
  have ended := lineCol?_of_append begins
  rw [← first] at began
  rw [← second] at ended
  exact linesFrom_lastA split spaces text began ended

end Script

/-- A source whose lines are read in a few turns, and that begins with no level. -/
theorem Tree.parseBytes?_of_lines {k : Nat} (bare : "# typed:".toList.isPrefixOf source.toList = false)
    (few : k ≤ source.utf8ByteSize + 1)
    (run : ∀ n, Script.linesFrom source file (n + k) [] 0 = some (.ok (os, o))) :
    parseBytes? source file = some (.ok (.ofOutlines none os)) := by
  have unread : Bytes.rest? source 0 = some (String.ofList source.toList) :=
    Span.slice?_from (List.nil_append _).symm
  have header : Script.strictness?.exec source file 0 = some (.ok (none, 0)) := by
    simp only [Script.strictness?, Script.exec, Bytes.look_of_rest? unread, bare, Option.bind_some,
      ByteOutcome.andThen]
    rfl
  have body : (Script.body {}).exec source file 0 = some (.ok (os, o)) := by
    have lines := run (source.utf8ByteSize + 1 - k)
    rwa [Nat.sub_add_cancel few] at lines
  simp only [parseBytes?, Script.file, Script.exec, header, Option.bind_some, ByteOutcome.andThen, body]
  rfl

end InterfaceFile
