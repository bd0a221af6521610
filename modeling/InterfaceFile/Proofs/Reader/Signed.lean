import InterfaceFile.Proofs.RoundTrip.Printable

/-!
# Declarations and their signatures

Methods and attributes can have signatures, and no other declaration has any. Signatures are read
before their declaration and given to it when its line is finished, which changes nothing else of it.
-/

namespace InterfaceFile

namespace Declaration

/-- A declaration that can have signatures. -/
def isSignable : Declaration → Bool
  | method _ | attr _ => true
  | _ => false

/-- The signatures of a declaration that has signatures. -/
def sigs : Declaration → List Sig
  | method m => m.sigs
  | attr a => a.sigs
  | _ => []

/-- The declaration with other signatures, if it can have any. -/
def withSigs (sigs : List Sig) : Declaration → Declaration
  | .method m => .method { m with sigs }
  | .attr a => .attr { a with sigs }
  | d => d

/-- The declaration without its signatures, as it stands in the text. -/
def unsigned : Declaration → Declaration
  | method m => method { m with sigs := [] }
  | attr a => attr { a with sigs := [] }
  | d => d

variable {d d' : Declaration} {ss : List Sig}

theorem withSigs_sigs (d : Declaration) : d.withSigs d.sigs = d := by
  cases d <;> rfl

theorem withSigs_withSigs (d : Declaration) (ss ss' : List Sig) :
    (d.withSigs ss).withSigs ss' = d.withSigs ss' := by
  cases d <;> rfl

theorem withSigs_nil (d : Declaration) : d.withSigs [] = d.unsigned := by
  cases d <;> rfl

theorem isSignable_withSigs (d : Declaration) (ss : List Sig) :
    (d.withSigs ss).isSignable = d.isSignable := by
  cases d <;> rfl

theorem sigs_withSigs (signable : d.isSignable = true) (ss : List Sig) : (d.withSigs ss).sigs = ss := by
  cases d with
  | method m => rfl
  | attr a => rfl
  | _ => cases signable

theorem withSigs_eq_self (other : d.isSignable = false) (ss : List Sig) : d.withSigs ss = d := by
  cases d with
  | method m => cases other
  | attr a => cases other
  | _ => rfl

theorem sigs_unsigned (d : Declaration) : d.unsigned.sigs = [] := by
  cases d <;> rfl

theorem unsigned_withSigs (d : Declaration) (ss : List Sig) : (d.withSigs ss).unsigned = d.unsigned := by
  rw [← withSigs_nil, ← withSigs_nil, withSigs_withSigs]

theorem unsigned_of_sigs_eq_nil (h : d.sigs = []) : d.unsigned = d := by
  rw [← withSigs_nil, ← h, withSigs_sigs]

theorem sigs_written (d : Declaration) : d.written.sigs = d.sigs.map Sig.written := by
  cases d <;> rfl

theorem sigs_unlocated (d : Declaration) : d.unlocated.sigs = d.sigs.map Sig.unlocated := by
  cases d <;> rfl

theorem unlocated_withSigs (d : Declaration) (ss : List Sig) :
    (d.withSigs ss).unlocated = d.unlocated.withSigs (ss.map Sig.unlocated) := by
  cases d <;> rfl

/-- Signatures are added to those that there are, and nothing else changes. -/
theorem withSigs?_eq_some (signed : d.withSigs? ss = some d') :
    d.isSignable = true ∧ d' = d.withSigs (d.sigs ++ ss) := by
  cases d with
  | method m => exact ⟨rfl, (Option.some.inj signed).symm⟩
  | attr a => exact ⟨rfl, (Option.some.inj signed).symm⟩
  | _ => cases signed

theorem withSigs?_eq_none (unsigned : d.withSigs? ss = none) : d.isSignable = false := by
  cases d with
  | method m => cases unsigned
  | attr a => cases unsigned
  | _ => rfl

/-- A declaration that is read after its signatures is complete with them. -/
theorem unlocated_signed {decl : Declaration} (same : d.unlocated = decl.written.unsigned)
    (read : ss.map Sig.unlocated = decl.sigs.map Sig.written) :
    ((d.withSigs? ss).getD d).unlocated = decl.written ∧ (d.withSigs? ss = none → ss = []) := by
  have unsigned : d.sigs = [] := by
    have none := sigs_unlocated d
    rw [same, sigs_unsigned] at none
    exact List.map_eq_nil_iff.1 none.symm
  have whole : (d.withSigs ss).unlocated = decl.written := by
    rw [unlocated_withSigs, same, read, ← sigs_written, ← withSigs_nil, withSigs_withSigs, withSigs_sigs]
  cases signed : d.withSigs? ss with
  | some d' =>
    obtain ⟨-, rfl⟩ := withSigs?_eq_some signed
    rw [unsigned]
    exact ⟨whole, nofun⟩
  | none =>
    rw [withSigs_eq_self (withSigs?_eq_none signed)] at whole
    refine ⟨whole, fun _ => ?_⟩
    rw [← sigs_written, ← whole, sigs_unlocated, unsigned] at read
    exact List.map_eq_nil_iff.1 read

end Declaration

end InterfaceFile
