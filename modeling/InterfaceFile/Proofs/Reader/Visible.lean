import InterfaceFile.Proofs.Reader.Gives
import InterfaceFile.Proofs.Reader.Signed

/-!
# Visibilities in the text

A method or an attribute gets the visibility that is written before it. Without one it is public, so
that a tree does not tell whether `public` was written.
-/

namespace InterfaceFile

/-- The visibility of a declaration, if it has one of its own. -/
def Declaration.visibility? : Declaration → Option Visibility
  | .method m => some m.visibility
  | .attr a => some a.visibility
  | _ => none

def Node.visibility? (n : Node) : Option Visibility :=
  n.decl.visibility?

def Statement.visibility? : Statement → Option Visibility
  | .leaf decl _ => decl.visibility?
  | _ => none

/-- The visibility that a keyword names, if it is one. -/
def Keyword.visibility? : Keyword → Option Visibility
  | .visibility level => some level
  | _ => none

/-- The visibility that a text begins with, if its first word is one. -/
def visibilityWord? (text : List Char) : Option Visibility :=
  (Keyword.ofWord? (String.ofList (text.takeWhile isWordChar))).bind Keyword.visibility?

/-- Signatures do not change a visibility. -/
theorem Declaration.visibility?_withSigs (decl : Declaration) (sigs : List Sig) :
    (decl.withSigs sigs).visibility? = decl.visibility? := by
  cases decl <;> rfl

namespace Reader

variable {x : List Char} {level : Visibility}

/-- What a reader of statements gives if it shows nothing at another level. -/
abbrev ShowsAt (level : Visibility) (s : Statement) (_ : List Char) : Prop :=
  ∀ v ∈ s.visibility?, v = level

theorem showsAt_of_eq {s : Statement} (shown : s.visibility? = some level) : ShowsAt level s x :=
  fun _ visible => Option.some.inj (visible.symm.trans shown)

theorem gives_method_visibility : Gives (method level) x (ShowsAt level) := by
  refine gives_next fun _ _ => gives_next fun _ _ => gives_next fun _ _ => gives_next fun _ _ => ?_
  refine .ite (fun _ => gives_unexpected _) fun _ => ?_
  exact gives_next fun _ _ => gives_next fun _ _ => gives_pure (showsAt_of_eq rfl)

theorem gives_attributes_visibility (access : Access) :
    Gives (attributes level access) x (ShowsAt level) :=
  gives_next fun _ _ => .ite (fun _ => gives_unexpected _) fun _ => gives_pure (showsAt_of_eq rfl)

theorem gives_callStatement_visibility (callee : Callee) :
    Gives (callStatement callee) x (ShowsAt level) :=
  gives_next fun _ _ => gives_pure nofun

/-- A visibility goes to what it is written before, or to nothing. -/
theorem gives_afterVisibility_visibility : Gives (afterVisibility level) x (ShowsAt level) := by
  refine gives_next fun _ _ => gives_next fun next _ => ?_
  match next with
  | some none => exact gives_method_visibility
  | some (some access) => exact gives_attributes_visibility access
  | none => exact gives_next fun _ _ => gives_pure nofun

theorem gives_keywordStatement_visibility (keyword : Keyword) :
    Gives (keywordStatement keyword) x (ShowsAt (keyword.visibility?.getD .pub)) := by
  cases keyword with
  | moduleWord => exact gives_next fun _ _ => gives_next fun _ _ => gives_pure nofun
  | classWord => exact gives_next fun _ _ => gives_pure nofun
  | sigWord => exact gives_next fun _ _ => gives_pure nofun
  | defWord => exact gives_method_visibility
  | visibility level => exact gives_afterVisibility_visibility
  | attrWord access => exact gives_attributes_visibility access
  | call callee => exact gives_callStatement_visibility callee

theorem gives_constant_visibility : Gives constant x (ShowsAt level) := by
  refine gives_next fun _ _ => gives_next fun _ _ => ?_
  refine gives_branch (fun _ => gives_pure nofun) fun _ => gives_branch (fun _ => ?_) fun _ =>
    gives_pure nofun
  refine gives_next fun _ _ => gives_next fun template _ => ?_
  cases template with
  | some template => exact gives_callStatement_visibility _
  | none => exact gives_next fun _ _ => gives_pure nofun

theorem gives_otherCall_visibility (name : String) :
    Gives (otherCall name) x (ShowsAt level) := by
  refine gives_branch (fun _ => gives_next fun _ _ => ?_) fun _ => ?_
  · exact gives_branch (fun _ => gives_pure nofun) fun _ => gives_callStatement_visibility _
  · exact gives_branch (fun _ => gives_callStatement_visibility _) fun _ =>
      gives_callStatement_visibility _

theorem gives_plainStatement_visibility : Gives plainStatement x (ShowsAt level) := by
  refine gives_next fun field _ => ?_
  cases field with
  | some field => exact gives_callStatement_visibility _
  | none =>
    refine gives_branch (fun _ => gives_constant_visibility) fun _ => gives_next fun name _ => ?_
    cases name with
    | some name => exact gives_otherCall_visibility name
    | none => exact gives_unexpected _

/-- A method or an attribute has the visibility that its statement begins with, or it is public. -/
theorem gives_statement_visibility :
    Gives statement x (ShowsAt ((visibilityWord? x).getD .pub)) := by
  refine (gives_word? _).bind fun keyword y given => ?_
  cases keyword with
  | none => exact gives_plainStatement_visibility
  | some keyword =>
    obtain ⟨-, -, means⟩ := given.1 keyword rfl
    have word : visibilityWord? x = keyword.visibility? := by
      rw [visibilityWord?, means]
      rfl
    rw [word]
    exact gives_keywordStatement_visibility keyword

end Reader

end InterfaceFile
