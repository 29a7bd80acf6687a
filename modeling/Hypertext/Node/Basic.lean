import Hypertext.Token

/-!
# Nodes

The tree of a markup fragment, its walk in document order, and its canonical written form.
Texts and attribute values are as written, so nothing is escaped on the way out.
-/

namespace Hypertext

set_option autoImplicit false

inductive Node where
  | element (name : Text) (attributes : List Attribute) (children : List Node)
  | text (run : Text)
  | comment (body : Text)
  deriving Repr

namespace Node

/-- The attributes of an element; other nodes have none. -/
def attributes? : Node → Option (List Attribute)
  | element _ attributes _ => some attributes
  | text _ | comment _ => none

inductive Stop where
  | element (name : Text) (attributes : List Attribute)
  | text (run : Text)
  | comment (body : Text)
  deriving DecidableEq, Repr

mutual

/-- A node and everything below it in document order. -/
def walk : Node → List Stop
  | element name attributes children => .element name attributes :: walkAll children
  | text run => [.text run]
  | comment body => [.comment body]

def walkAll : List Node → List Stop
  | [] => []
  | node :: rest => node.walk ++ walkAll rest

end

@[simp] theorem walkAll_append (nodes more : List Node) :
    walkAll (nodes ++ more) = walkAll nodes ++ walkAll more := by
  induction nodes with
  | nil => rfl
  | cons node rest ih => simp [walkAll, ih]

end Node

/-- An attribute in its canonical written form, with the space before it. -/
def Attribute.written (a : Attribute) : Text :=
  match a.value with
  | none => ' ' :: a.name
  | some value => ' ' :: (a.name ++ '=' :: '"' :: (value ++ ['"']))

namespace Node

def startTag (name : Text) (attributes : List Attribute) : Text :=
  '<' :: (name ++ (attributes.flatMap Attribute.written ++ ['>']))

def endTag (name : Text) : Text :=
  '<' :: '/' :: (name ++ ['>'])

mutual

/-- The canonical written form of a node. A void element has no content and no end tag. -/
def written : Node → Text
  | element name attributes children =>
    if Tag.isVoid name then startTag name attributes
    else startTag name attributes ++ (writtenAll children ++ endTag name)
  | text run => run
  | comment body => "<!--".toList ++ (body ++ "-->".toList)

def writtenAll : List Node → Text
  | [] => []
  | node :: rest => node.written ++ writtenAll rest

end

@[simp] theorem writtenAll_append (nodes more : List Node) :
    writtenAll (nodes ++ more) = writtenAll nodes ++ writtenAll more := by
  induction nodes with
  | nil => rfl
  | cons node rest ih => simp [writtenAll, ih]

end Node

end Hypertext
