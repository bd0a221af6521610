import InterfaceFile.Style

/-!
# Printing options
-/

namespace InterfaceFile

/-- How a tree is printed. -/
structure PrintOptions where
  /-- The level of the `# typed:` line; without it the level of the tree is taken. -/
  strictness : Option String := none
  /-- Writes the location of each top-level statement before it. -/
  printLocations : Bool := false
  /-- Puts the `end` of an empty scope, method or signature on a line of its own. -/
  foldEmptyScopes : Bool := false
  /-- `include(A)` instead of `include A`, and so for the other mixins. -/
  parenthesizeIncludes : Bool := false
  /-- `mixes_in_class_methods(A)` instead of `mixes_in_class_methods A`. -/
  parenthesizeMixins : Bool := true
  /-- Colours keywords, names and comments. -/
  colorize : Bool := false
  /-- The columns of one level of nesting. -/
  indentWidth : Nat := 2
  /-- A signature whose line would be longer is printed as a block. -/
  maxLineLength : Option Nat := none
  deriving DecidableEq, Repr, Inhabited

namespace PrintOptions

/-- Text in a style, if the options ask for styles. -/
def paint (o : PrintOptions) (style : Style) (text : String) : String :=
  style.paint o.colorize text

/-- A styled keyword. -/
def keyword (o : PrintOptions) (word : String) : String :=
  o.paint .keyword word

/-- A styled comment line. -/
def commentLine (o : PrintOptions) (text : String) : String :=
  o.paint .comment (if text.isEmpty then "#" else "# " ++ text)

end PrintOptions

end InterfaceFile
