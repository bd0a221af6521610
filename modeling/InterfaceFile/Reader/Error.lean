import InterfaceFile.Reader.Span

/-!
# Reading errors

The reader stops at the first error. An error says what is wrong and which bytes show it.
-/

namespace InterfaceFile

/-- What the reader can be waiting for. -/
inductive Expected where
  | argument
  | attributeName
  | closeBrace
  | closeParen
  | colon
  | commaOrClose
  | constantName
  | declaration
  | defaultValue
  | endKeyword
  | endOfLine
  | methodName
  | openBraceOrDo
  | openParen
  | parameterName
  | selfKeyword
  | sigOperation
  | superclass
  | type
  | value
  deriving DecidableEq, Repr

/-- What is expected, in words. -/
def Expected.describe : Expected → String
  | argument => "an argument"
  | attributeName => "an attribute name"
  | closeBrace => "`\x7d`"
  | closeParen => "`)`"
  | colon => "`:`"
  | commaOrClose => "`,` or `)`"
  | constantName => "a constant name"
  | declaration => "a declaration"
  | defaultValue => "a default value"
  | endKeyword => "`end`"
  | endOfLine => "end of line"
  | methodName => "a method name"
  | openBraceOrDo => "`\x7b` or `do`"
  | openParen => "`(`"
  | parameterName => "a parameter name"
  | selfKeyword => "`self`"
  | sigOperation => "a sig operation"
  | superclass => "a superclass"
  | type => "a type"
  | value => "a value"

/-- What stands where something else was expected. -/
inductive Found where
  | endOfInput
  | endOfLine
  | text (s : String)
  deriving DecidableEq, Repr

/-- What is found, in words. -/
def Found.describe : Found → String
  | endOfInput => "end of input"
  | endOfLine => "end of line"
  | text s => "`" ++ s ++ "`"

/-- What an `end` closes. -/
inductive Construct where
  | moduleBody
  | classBody
  | methodBody
  deriving DecidableEq, Repr

/-- What an `end` closes, in words. -/
def Construct.describe : Construct → String
  | moduleBody => "module"
  | classBody => "class"
  | methodBody => "method"

/-- What is wrong with a text. -/
inductive ReadErrorKind where
  | unexpected (expected : Expected) (found : Found)
  /-- The text ends inside a scope, or a method is not closed. -/
  | missingEnd (what : Construct)
  /-- An `end` that closes nothing. -/
  | unexpectedEnd
  /-- A comment with no declaration after it. -/
  | danglingComment
  /-- A signature with no method or attribute after it. -/
  | danglingSig
  | unknownSigOp (name : String)
  | unterminatedString
  | unclosed (bracket : Char)
  /-- More scopes inside each other than the reader takes. -/
  | tooDeep (limit : Nat)
  deriving DecidableEq, Repr

/-- What is wrong, in words. -/
def ReadErrorKind.message : ReadErrorKind → String
  | unexpected expected found => "expected " ++ expected.describe ++ ", found " ++ found.describe
  | missingEnd what => "missing `end` for " ++ what.describe
  | unexpectedEnd => "unexpected `end`"
  | danglingComment => "comment is not followed by a declaration"
  | danglingSig => "sig is not followed by a method or attribute"
  | unknownSigOp name => "unknown sig operation `" ++ name ++ "`"
  | unterminatedString => "unterminated string literal"
  | unclosed bracket => "unclosed `" ++ bracket.toString ++ "`"
  | tooDeep limit => "declarations nested more than " ++ toString limit ++ " levels deep"

/-- A reading error with the bytes that show it. -/
structure ReadError where
  kind : ReadErrorKind
  span : Span
  deriving DecidableEq, Repr

end InterfaceFile
