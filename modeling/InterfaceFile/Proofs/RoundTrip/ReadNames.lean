import InterfaceFile.Proofs.RoundTrip.Printable

/-!
# Names are read back
-/

namespace InterfaceFile

theorem isWordChar_of_upper {c : Char} (upper : c.isUpper = true) : isWordChar c = true := by
  show (c.isUpper || c.isLower || c.isDigit || decide (c = '_')) = true
  rw [upper]
  rfl

/-- A path is a word and, after `::`, another path. -/
theorem isPathFrom_split {start : Bool} {cs : List Char} (h : isPathFrom start cs = true) :
    ∃ w rest, cs = w ++ rest ∧ Reader.AllWord w ∧ (start = true → startsUpper w = true) ∧
      (rest = [] ∨ ∃ more, rest = ':' :: ':' :: more ∧ isPathFrom true more = true) := by
  fun_induction isPathFrom start cs with
  | case1 => cases h
  | case2 c cs ih =>
    obtain ⟨upper, later⟩ := Bool.and_eq_true_iff.1 h
    obtain ⟨w, rest, rfl, all, -, tail⟩ := ih later
    refine ⟨c :: w, rest, rfl, ?_, fun _ => by simpa [startsUpper] using upper, tail⟩
    intro d member
    rcases List.mem_cons.1 member with rfl | inside
    · exact isWordChar_of_upper upper
    · exact all d inside
  | case3 => exact ⟨[], [], rfl, by simp [Reader.AllWord], by simp, .inl rfl⟩
  | case4 cs ih => exact ⟨[], _, rfl, by simp [Reader.AllWord], by simp, .inr ⟨cs, rfl, h⟩⟩
  | case5 c cs other ih =>
    obtain ⟨word, later⟩ := Bool.and_eq_true_iff.1 h
    obtain ⟨w, rest, rfl, all, -, tail⟩ := ih later
    refine ⟨c :: w, rest, rfl, ?_, by simp, tail⟩
    intro d member
    rcases List.mem_cons.1 member with rfl | inside
    · exact word
    · exact all d inside

theorem nonempty_of_startsUpper {w : List Char} (h : startsUpper w = true) : w ≠ [] := by
  rintro rfl
  cases h

/-- What a path begins with. -/
theorem startsUpper_of_isPathFrom {cs : List Char} (h : isPathFrom true cs = true)
    (x : List Char) : startsUpper (cs ++ x) = true := by
  cases cs with
  | nil => cases h
  | cons c cs =>
    rw [isPathFrom] at h
    simpa [startsUpper] using (Bool.and_eq_true_iff.1 h).1

namespace Reader

variable {x : List Char}

/-- A character that goes on with a path. -/
def inPath (c : Char) : Bool :=
  isWordChar c || c = ':'

theorem stops_word_of_inPath (h : Stops inPath x) : Stops isWordChar x :=
  h.mono fun c word => by simp [inPath, word]

theorem continuesPath_of_stops (h : Stops inPath x) : continuesPath x = false := by
  unfold continuesPath
  split
  · simp [inPath] at h
  · rfl

theorem reads_pathLoop {x : List Char} (stop : Stops inPath x) :
    ∀ (n : Nat) (cs path : List Char), cs.length ≤ n → isPathFrom true cs = true →
      Reads (loop pathStep (fun path => (advances_pathStep path).moves) path) (cs ++ x) x
        (· = String.ofList (path ++ cs)) := by
  intro n
  induction n with
  | zero =>
    intro cs path short h
    rw [List.length_eq_zero_iff.1 (Nat.le_zero.1 short)] at h
    cases h
  | succ n ih =>
    intro cs path short h
    obtain ⟨w, rest, rfl, all, upper, tail⟩ := isPathFrom_split h
    have nonempty := nonempty_of_startsUpper (upper rfl)
    rcases tail with rfl | ⟨more, rfl, deeper⟩
    · rw [List.append_nil]
      refine Reads.done ?_
      refine (reads_word? nonempty all (stops_word_of_inPath stop) (if_pos (upper rfl))).followedBy ?_
      refine (reads_look _).followedBy ?_
      rw [continuesPath_of_stops stop]
      exact reads_pure ⟨_, rfl, rfl⟩
    · have shorter : more.length ≤ n := by
        have := List.length_pos_iff.2 nonempty
        simp only [List.length_append, List.length_cons] at short
        omega
      have next : Stops isWordChar (':' :: ':' :: more ++ x) := by
        rw [List.cons_append, Stops.cons_iff]
        decide
      have goes : continuesPath (':' :: ':' :: more ++ x) = true :=
        startsUpper_of_isPathFrom deeper x
      rw [List.append_assoc]
      refine Reads.againWith ?_ ((ih more (path ++ w ++ [':', ':']) shorter deeper).mono ?_)
      · refine (reads_word? nonempty all next (if_pos (upper rfl))).followedBy ?_
        refine (reads_look _).followedBy ?_
        rw [goes]
        exact (reads_eatText [':', ':']).followedBy (reads_pure rfl)
      · rintro _ rfl
        simp

/-- A constant path is read as a whole. -/
theorem reads_constantName {s : String} (path : isConstantPath s = true) (stop : Stops inPath x) :
    Reads constantName (s.toList ++ x) x (· = s) := by
  rw [isConstantPath] at path
  split at path
  · next cs text =>
    rw [text]
    refine (reads_eatText [':', ':']).followedBy ?_
    refine (reads_pathLoop stop _ cs [':', ':'] (Nat.le_refl _) path).mono fun _ same => ?_
    rw [same, ← String.ofList_toList (s := s), text]
    rfl
  · next relative =>
    have upper := startsUpper_of_isPathFrom path x
    refine (reads_eatText_no ?_).followedBy ?_
    · rintro ⟨t, eq⟩
      rw [← eq] at upper
      cases upper
    · refine (reads_pathLoop stop _ s.toList [] (Nat.le_refl _) path).mono fun _ same => ?_
      rw [same, List.nil_append, String.ofList_toList]

theorem reads_identifier? {s : String} (name : IsName s) (stop : Stops isWordChar x) :
    Reads identifier? (s.toList ++ x) x (· = some s) := by
  have nonempty : s.toList ≠ [] := by
    intro empty
    have := name.2
    rw [empty] at this
    cases this
  refine (reads_word? nonempty name.1 stop (a := s) ?_)
  rw [if_pos name.2, String.ofList_toList]

end Reader

end InterfaceFile
