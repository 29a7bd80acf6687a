import Hypertext.Lexeme.Read
import Hypertext.Note

/-!
# Tokens

What the lexemes of a text mean. Tag and attribute names are in lower case, texts and
attribute values are as written, character references included.
-/

namespace Hypertext

set_option autoImplicit false

/-- An attribute of an element; one without a value has only its name. -/
structure Attribute where
  name : Text
  value : Option Text
  deriving DecidableEq, Repr

/-- The value of the first attribute of a name; without a value it reads as empty. -/
def Attribute.lookup? (name : Text) (attributes : List Attribute) : Option Text :=
  (attributes.find? fun a => a.name = name).map fun a => a.value.getD []

inductive Token where
  | doctype (body : Text)
  | startTag (name : Text) (attributes : List Attribute) (selfClosing : Bool)
  | endTag (name : Text)
  | comment (body : Text)
  | text (run : Text)
  deriving DecidableEq, Repr

def WrittenValue.body : WrittenValue → Text
  | .quoted _ body _ => body
  | .bare body => body

def WrittenAttribute.meaning (a : WrittenAttribute) : Attribute :=
  ⟨a.name.lowercase, a.assignment.map fun assignment => assignment.value.body⟩

def TagPiece.meaning? : TagPiece → Option Attribute
  | .attr a => some a.meaning
  | _ => none

def WrittenTag.token (tag : WrittenTag) : Token :=
  .startTag tag.element (tag.pieces.filterMap TagPiece.meaning?) tag.isSelfClosing

/-- A run of text is a token unless it is empty. -/
def Token.ofRun (run : Text) : List Token :=
  if run = [] then [] else [.text run]

/-- What a lexeme means. A declaration is a document type or else as good as a comment; an end
tag without a name means nothing; raw text always brings its end tag, written or not. -/
def Lexeme.tokens : Lexeme → List Token
  | .text run => [.text run]
  | .comment body _ => [.comment body]
  | .declaration mark body _ =>
    if mark = '!' ∧ Text.lowercase (body.take 7) = "doctype".toList then [.doctype body]
    else [.comment body]
  | .endTag name _ _ => if name = [] then [] else [.endTag name.lowercase]
  | .startTag tag => [tag.token]
  | .rawText tag content _ => tag.token :: (Token.ofRun content ++ [.endTag tag.element])

def Lexeme.notes (offset : Nat) : Lexeme → List Note
  | .comment _ [] => [.unterminatedComment offset]
  | .endTag [] _ _ => [.namelessEndTag offset]
  | .rawText tag _ [] => [.unclosedRawText tag.element]
  | _ => []

namespace Token

def readAll (s : Text) : List Token :=
  (Lexeme.readAll s).flatMap Lexeme.tokens

/-- The notes on lexemes, the first of which starts at an offset. -/
def notesFrom (offset : Nat) : List Lexeme → List Note
  | [] => []
  | lexeme :: rest => lexeme.notes offset ++ notesFrom (offset + lexeme.source.size) rest

def notes (s : Text) : List Note :=
  notesFrom 0 (Lexeme.readAll s)

end Token

end Hypertext
