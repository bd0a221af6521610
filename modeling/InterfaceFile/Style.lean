/-!
# Terminal styles

Escape sequences that colour printed text. Styling only adds to a text: taking the sequences out
again gives the plain text back.
-/

namespace InterfaceFile

/-- An escape sequence that changes the style of the text after it. -/
structure Style where
  code : String
  deriving DecidableEq, Repr, Inhabited

namespace Style

/-- Back to plain text. -/
def reset : Style := ⟨"\x1b[0m"⟩

def gray : Style := ⟨"\x1b[90m"⟩

def cyan : Style := ⟨"\x1b[36m"⟩

def magenta : Style := ⟨"\x1b[35m"⟩

def yellow : Style := ⟨"\x1b[33m"⟩

/-- The style of comments. -/
def comment : Style := gray

/-- The style of keywords such as `module`, `class`, `def` and `end`. -/
def keyword : Style := magenta

/-- The style of the word `sig`. -/
def sig : Style := cyan

/-- The style of declared names. -/
def name : Style := yellow

/-- The text in a style, if styles are enabled. The empty text stays empty. -/
def paint (style : Style) (enabled : Bool) (text : String) : String :=
  if enabled && !text.isEmpty then style.code ++ text ++ reset.code else text

/-- Drops escape sequences, each from its escape character to the next `m`. `inside` says whether
    the text begins within a sequence. -/
def stripFrom (inside : Bool) : List Char → List Char
  | [] => []
  | c :: cs =>
    if inside then stripFrom (c ≠ 'm') cs
    else if c = '\x1b' then stripFrom true cs
    else c :: stripFrom false cs

/-- The text without its escape sequences. -/
def strip (text : String) : String :=
  String.ofList (stripFrom false text.toList)

end Style

end InterfaceFile
