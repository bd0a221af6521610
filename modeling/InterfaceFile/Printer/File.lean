import InterfaceFile.Printer.Statement
import InterfaceFile.Tree.Outline

/-!
# Printed files

The text of a tree and of each statement in it. A scope without statements takes one line; a scope
that stands for a whole file, inside another scope, is printed as its bare statements.
-/

namespace InterfaceFile

namespace PrintOptions

mutual

/-- A statement with its comments. The document begins at the current column and ends without a
    line break. -/
def statementDoc (o : PrintOptions) (depth : Nat) : Outline → Doc
  | .mk node body =>
    .concat <| o.commentDocs node.comments ++ match node.decl with
      | .scope { kind := .root, .. } => (o.bodyDocs depth body).tail
      | .scope s =>
        if body.isEmpty then o.headerDocs s ++ o.emptyEnd
        else o.headerDocs s ++ [.nest o.indentWidth (.concat (o.bodyDocs (depth + 1) body)),
          .line, .text (o.keyword "end")]
      | decl => o.leafDocs depth decl

/-- Statements, each after a line break. -/
def bodyDocs (o : PrintOptions) (depth : Nat) : List Outline → List Doc
  | [] => []
  | statement :: rest => .line :: o.statementDoc depth statement :: o.bodyDocs depth rest

end

/-- The location of a top-level statement as a comment, if the options ask for it. -/
def locationDocs (o : PrintOptions) (node : Node) : List Doc :=
  match node.loc with
  | some loc => if o.printLocations then [.text (o.commentLine loc.describe), .line] else []
  | none => []

/-- The `# typed:` line and the empty line after it. -/
def strictnessDocs (o : PrintOptions) : Option String → List Doc
  | some level => [.text (o.commentLine ("typed: " ++ level)), .line, .line]
  | none => []

/-- A file with the given statements, each with a line break after it. -/
def fileDoc (o : PrintOptions) (strictness : Option String) (body : List Outline) : Doc :=
  .concat <| o.strictnessDocs (o.strictness <|> strictness) ++
    body.flatMap fun statement =>
      o.locationDocs statement.node ++ [o.statementDoc 0 statement, .line]

end PrintOptions

namespace Tree

/-- The text of a tree. -/
def render (t : Tree) (o : PrintOptions) : String :=
  (o.fileDoc t.strictness (t.outline root).body).render

/-- The text of one statement with all that stands inside it, as at the top of a file and without
    a line break at its end. -/
def renderNode (t : Tree) (id : NodeId) (o : PrintOptions) : String :=
  (o.statementDoc 0 (t.outline id)).render

end Tree

end InterfaceFile
