import Hypertext.Node.Build
import Hypertext.Text.Reference
import Hypertext.Text.Words

/-!
# Appearance

The plain text a reader would see of markup, for comparing against an expected text. Block
elements are set off by spaces, hidden elements and comments do not show, and two marker
attributes override what an element shows. References are decoded once, over the whole
text, and white space is normalized after that.
-/

namespace Hypertext

set_option autoImplicit false

namespace Node

/-- The attribute whose value shows, set off by spaces, before the element. -/
def iconMarker : Text := "data-test-icon"

/-- The attribute whose value shows instead of the content. -/
def contentMarker : Text := "data-test-content"

/-- The icon of an element, set off by spaces; an empty one does not show. -/
def iconAppearance (attributes : List Attribute) : Text :=
  match Attribute.lookup? iconMarker attributes with
  | none | some [] => []
  | some icon => ' ' :: (icon ++ [' '])

def spaced (category : Tag.Category) (content : Text) : Text :=
  match category with
  | .block => ' ' :: (content ++ [' '])
  | .inline | .hidden => content

mutual

/-- What a node shows before references are decoded and white space is normalized. -/
def appearance : Node → Text
  | element name attributes children =>
    match Tag.category name with
    | .hidden => []
    | category =>
      iconAppearance attributes ++
        spaced category ((Attribute.lookup? contentMarker attributes).getD (appearanceAll children))
  | text run => run
  | comment _ => []

def appearanceAll : List Node → Text
  | [] => []
  | node :: rest => node.appearance ++ appearanceAll rest

end

@[simp] theorem appearanceAll_append (nodes more : List Node) :
    appearanceAll (nodes ++ more) = appearanceAll nodes ++ appearanceAll more := by
  induction nodes with
  | nil => rfl
  | cons node rest ih => simp [appearanceAll, ih]

mutual

def appearanceNotes : Node → List Note
  | element name attributes children =>
    if Tag.category name = .hidden then [.hiddenElement name]
    else match Attribute.lookup? contentMarker attributes with
      | some _ => [.contentReplaced name contentMarker]
      | none => appearanceNotesAll children
  | text _ | comment _ => []

def appearanceNotesAll : List Node → List Note
  | [] => []
  | node :: rest => node.appearanceNotes ++ appearanceNotesAll rest

end

def visualize (nodes : List Node) : Text :=
  (appearanceAll nodes).decode.normalize

end Node

end Hypertext
