import InterfaceFile.Lint.Index

/-!
# Checks

Rules that a set of trees can break.
-/

namespace InterfaceFile

/-- A broken rule. -/
structure Problem where
  loc : Option Location
  message : String
  hint : Option String := none
  deriving DecidableEq, Repr

/-- The rules. -/
inductive Check where
  /-- A name other than that of a scope has one definition. -/
  | duplicates
  /-- Some modules are not mixed in. -/
  | forbiddenMixins (targets : List String)
  /-- Modules and classes have comments. -/
  | requireDocumentation
  /-- Methods and attributes have signatures. -/
  | requireSignature
  deriving DecidableEq, Repr

namespace Check

/-- The name of a rule. -/
def name : Check → String
  | duplicates => "duplicates"
  | forbiddenMixins _ => "forbidden-mixins"
  | requireDocumentation => "require-documentation"
  | requireSignature => "require-signature"

/-- The modules that are forbidden if nothing else is said. -/
def defaultTargets : List String :=
  ["T::Sig", "T::Helpers"]

/-- The rules that are checked if nothing else is said. -/
def defaults : List Check :=
  [duplicates, forbiddenMixins defaultTargets, requireDocumentation, requireSignature]

/-- The problems of one name: each later declaration with another definition than the first. A name
    whose first declaration is a scope has none. -/
def duplicateProblems (name : String) : List DeclEntry → List Problem
  | [] => []
  | first :: rest =>
    if first.node.isScope then []
    else (rest.filter fun e => e.definition ≠ first.definition).map fun e =>
      { loc := e.node.loc
        message := "`" ++ name ++ "` is declared more than once with different definitions"
        hint := first.node.loc.map fun loc => "first declared at " ++ loc.describe }

/-- A mixed-in module without the `::` before it. -/
def mixinTarget (arg : String) : String :=
  String.ofList (Text.dropCopies [':', ':'] arg.toList)

/-- The problems of a node that mixes in forbidden modules. -/
def mixinProblems (targets : List String) (e : DeclEntry) : List Problem :=
  match e.node.decl with
  | .call { callee := .mixin how, args, .. } =>
    (args.filter fun arg => mixinTarget arg ∈ targets).map fun arg =>
      { loc := e.node.loc
        message := "`" ++ e.name ++ "` " ++ how.keyword ++ "s forbidden mixin `" ++
          mixinTarget arg ++ "`"
        hint := some ("remove `" ++ how.keyword ++ " " ++ arg ++ "`") }
  | _ => []

/-- The problem of a module or class without comments. -/
def documentationProblem? (e : DeclEntry) : Option Problem :=
  match e.node.scope? with
  | some s =>
    if s.kind = .root ∨ s.kind = .singletonClass ∨ e.node.comments ≠ [] then none
    else some
      { loc := e.node.loc
        message := "`" ++ e.name ++ "` has no documentation"
        hint := some ("add a comment above the " ++ s.kind.describe ++ " header") }
  | none => none

/-- Can the node have signatures? -/
def takesSigs (n : Node) : Bool :=
  match n.decl with
  | .method _ | .attr _ => true
  | _ => false

/-- The problem of a method or attribute without signatures. -/
def signatureProblem? (e : DeclEntry) : Option Problem :=
  if takesSigs e.node && e.node.sigs.isEmpty then
    some { loc := e.node.loc, message := "`" ++ e.name ++ "` has no signature" }
  else none

/-- The problems that a rule finds. -/
def problems (ix : DeclIndex) : Check → List Problem
  | duplicates => ix.groups.flatMap fun (name, entries) => duplicateProblems name entries
  | forbiddenMixins targets => ix.nodes.flatMap (mixinProblems targets)
  | requireDocumentation => ix.nodes.filterMap documentationProblem?
  | requireSignature => ix.nodes.filterMap signatureProblem?

end Check

/-- Checks rules in order on the given trees. -/
def validate (trees : List Tree) (checks : List Check) : List Problem :=
  checks.flatMap (Check.problems (.ofTrees trees))

end InterfaceFile
