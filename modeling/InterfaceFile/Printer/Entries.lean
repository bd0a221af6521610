import InterfaceFile.Doc
import InterfaceFile.Node.Comment
import InterfaceFile.Printer.Options

/-!
# Lists with comments

A parameter list whose entries carry comments is printed with one entry a line. The comments of an
entry follow it, their later lines under the first.
-/

namespace InterfaceFile.PrintOptions

/-- Comment lines before a statement, each with a line break. -/
def commentDocs (o : PrintOptions) (comments : List Comment) : List Doc :=
  (comments.flatMap Comment.lines).flatMap fun line => [.text (o.commentLine line), .line]

/-- Comment lines after an entry that ends one column before `column`. -/
def trailingDocs (o : PrintOptions) (column : Nat) : List String → List Doc
  | [] => []
  | first :: rest => .text " " :: .text (o.commentLine first) ::
    rest.flatMap fun line => [.line, .text (Text.spaces column), .text (o.commentLine line)]

/-- One entry on a fresh line, with its comments. -/
def entryDocs (o : PrintOptions) (text : String) (comments : List Comment) : List Doc :=
  .line :: .text text :: o.trailingDocs (text.length + 1) (comments.flatMap Comment.lines)

/-- Entries with a comma after each but the last. -/
def entriesDocs (o : PrintOptions) : List (String × List Comment) → List Doc
  | [] => []
  | [(text, comments)] => o.entryDocs text comments
  | (text, comments) :: rest => o.entryDocs (text ++ ",") comments ++ o.entriesDocs rest

end InterfaceFile.PrintOptions
