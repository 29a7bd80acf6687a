import Hypertext.Tag

/-!
# Lexemes

A lexeme is a stretch of markup as written: nothing of the text is left out, so the lexemes
of a text put together give the text back. What a lexeme means is a matter of tokens.
-/

namespace Hypertext

set_option autoImplicit false

/-- What follows the `=` of an attribute. -/
inductive WrittenValue where
  | quoted (quote : Char) (body : Text) (closed : Bool)
  | bare (body : Text)
  deriving DecidableEq, Repr

/-- The part of an attribute from its name on, with the blanks around `=`. -/
structure Assignment where
  before : Text
  after : Text
  value : WrittenValue
  deriving DecidableEq, Repr

structure WrittenAttribute where
  name : Text
  assignment : Option Assignment
  deriving DecidableEq, Repr

/-- What can stand between the name of a tag and its end. -/
inductive TagPiece where
  | blank (c : Char)
  | slash
  | attr (a : WrittenAttribute)
  deriving DecidableEq, Repr

/-- How a start tag ends; the last way is that the text ends first. -/
inductive TagEnding where
  | plain
  | selfClosing
  | missing
  deriving DecidableEq, Repr

structure WrittenTag where
  name : Text
  pieces : List TagPiece
  ending : TagEnding
  deriving DecidableEq, Repr

/-- A stretch of markup as written. The ending of a comment and the end tag of a raw-text
element are empty when the text ends first. -/
inductive Lexeme where
  | text (run : Text)
  | comment (body ending : Text)
  | declaration (mark : Char) (body : Text) (closed : Bool)
  | endTag (name skipped : Text) (closed : Bool)
  | startTag (tag : WrittenTag)
  | rawText (tag : WrittenTag) (content close : Text)
  deriving DecidableEq, Repr

def WrittenValue.source : WrittenValue → Text
  | .quoted quote body closed => quote :: (body ++ Text.closing quote closed)
  | .bare body => body

def Assignment.source (a : Assignment) : Text :=
  a.before ++ '=' :: (a.after ++ a.value.source)

def WrittenAttribute.source (a : WrittenAttribute) : Text :=
  a.name ++ (a.assignment.map Assignment.source).getD []

def TagPiece.source : TagPiece → Text
  | .blank c => [c]
  | .slash => ['/']
  | .attr a => a.source

def TagEnding.source : TagEnding → Text
  | .plain => ['>']
  | .selfClosing => ['/', '>']
  | .missing => []

def WrittenTag.source (tag : WrittenTag) : Text :=
  '<' :: (tag.name ++ (tag.pieces.flatMap TagPiece.source ++ tag.ending.source))

def Lexeme.source : Lexeme → Text
  | .text run => run
  | .comment body ending => "<!--".toList ++ (body ++ ending)
  | .declaration mark body closed => '<' :: mark :: (body ++ Text.closing '>' closed)
  | .endTag name skipped closed => '<' :: '/' :: (name ++ (skipped ++ Text.closing '>' closed))
  | .startTag tag => tag.source
  | .rawText tag content close => tag.source ++ (content ++ close)

namespace WrittenTag

def element (tag : WrittenTag) : Text :=
  tag.name.lowercase

/-- Whether no content follows, be it by `/>` or because the element is void. -/
def isSelfClosing (tag : WrittenTag) : Bool :=
  tag.ending = .selfClosing || Tag.isVoid tag.element

def opensRawText (tag : WrittenTag) : Bool :=
  !tag.isSelfClosing && Tag.isRawText tag.element

end WrittenTag

end Hypertext
