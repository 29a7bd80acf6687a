import Hypertext.Node.Basic

/-!
# Trees from tokens

A tree is built from its tokens with the elements that are still open at hand. Every text
has a tree: an end tag closes the nearest open element of its name with all that is open
inside, one that finds none is dropped, and what is open at the end is closed. Start tags
close what they imply beforehand.
-/

namespace Hypertext

set_option autoImplicit false

/-- An element whose end has not been seen; the latest child comes first. -/
structure OpenElement where
  name : Text
  attributes : List Attribute
  children : List Node
  deriving Repr

def OpenElement.node (e : OpenElement) : Node :=
  .element e.name e.attributes e.children.reverse

/-- A tree under construction: the finished nodes outside every open element, the latest
first, and the open elements, the innermost first. -/
structure Builder where
  roots : List Node
  opened : List OpenElement
  deriving Repr

namespace Builder

def empty : Builder :=
  ⟨[], []⟩

def append (b : Builder) (node : Node) : Builder :=
  match b.opened with
  | [] => { b with roots := node :: b.roots }
  | parent :: outer =>
    { b with opened := { parent with children := node :: parent.children } :: outer }

/-- The names of the open elements, the innermost first. -/
def names (b : Builder) : List Text :=
  b.opened.map OpenElement.name

def begin (b : Builder) (name : Text) (attributes : List Attribute) : Builder :=
  { b with opened := ⟨name, attributes, []⟩ :: b.opened }

def finish (b : Builder) : Builder :=
  match b.opened with
  | [] => b
  | e :: outer => append { b with opened := outer } e.node

/-- The given number of open elements finished, from the innermost outward. -/
def finishMany (b : Builder) : Nat → Builder
  | 0 => b
  | n + 1 => b.finish.finishMany n

/-- What rules about implied end tags end, one rule after the other. -/
def finishImplied (b : Builder) : List Tag.ImpliedEnd → Builder
  | [] => b
  | rule :: rules => (b.finishMany (rule.depth b.names)).finishImplied rules

/-- How many open elements an end tag closes, if there is one of its name. -/
def endDepth? (b : Builder) (name : Text) : Option Nat :=
  (b.names.findIdx? fun openName => openName = name).map (· + 1)

def step (b : Builder) : Token → Builder
  | .doctype _ => b
  | .comment body => b.append (.comment body)
  | .text run => b.append (.text run)
  | .startTag name attributes selfClosing =>
    let b := b.finishImplied (Tag.impliedEnds name)
    if selfClosing then b.append (.element name attributes []) else b.begin name attributes
  | .endTag name =>
    match b.endDepth? name with
    | some depth => b.finishMany depth
    | none => b

def run (b : Builder) (tokens : List Token) : Builder :=
  tokens.foldl step b

/-- The tree, with everything still open closed. -/
def nodes (b : Builder) : List Node :=
  (b.finishMany b.opened.length).roots.reverse

def impliedNotes (b : Builder) (opening : Text) : List Tag.ImpliedEnd → List Note
  | [] => []
  | rule :: rules =>
    let depth := rule.depth b.names
    let closed := (b.names.take depth).getLast?
    (closed.map (Note.impliedEnd opening)).toList ++
      (b.finishMany depth).impliedNotes opening rules

def stepNotes (b : Builder) : Token → List Note
  | .startTag name _ _ => b.impliedNotes name (Tag.impliedEnds name)
  | .endTag name =>
    match b.endDepth? name with
    | some _ => []
    | none => [.strayEndTag name]
  | _ => []

def runNotes (b : Builder) : List Token → List Note
  | [] => []
  | token :: rest => b.stepNotes token ++ (b.step token).runNotes rest

end Builder

namespace Node

def ofTokens (tokens : List Token) : List Node :=
  (Builder.empty.run tokens).nodes

def parse (s : Text) : List Node :=
  ofTokens (Token.readAll s)

/-- What is to be told of parsing: first of reading the tokens, then of building the tree. -/
def parseNotes (s : Text) : List Note :=
  Token.notes s ++ Builder.empty.runNotes (Token.readAll s)

end Node

end Hypertext
