import Hypertext.Node.Appearance
import Hypertext.Json.Datum

/-!
# Sources

What a visualization can be made of: markup as text or wrapped, nodes that were parsed
before, or nothing at all. A component is whatever markup text it renders to.
-/

namespace Hypertext

set_option autoImplicit false

inductive Source where
  | nothing
  | html (s : Text)
  | markup (m : Markup)
  | nodes (list : List Node)
  deriving Repr

structure UnsupportedInput where
  found : Json.Kind
  deriving DecidableEq, Repr

def UnsupportedInput.message (e : UnsupportedInput) : String :=
  "cannot visualize " ++
    (match e.found with
      | .object => "object without an \"html\" string"
      | kind => kind.name) ++
    "; expected null, markup text or \x7b\"html\": ...\x7d"

namespace Source

def ofOption (source : Option Source) : Source :=
  source.getD nothing

/-- The source that a value stands for: null, markup text, or encoded markup. -/
def ofValue : Json.Value → Except UnsupportedInput Source
  | .null => .ok nothing
  | .string s => .ok (html s)
  | .object members =>
    match Json.lookup? Json.markupKey members with
    | some (.string s) => .ok (html s)
    | _ => .error ⟨.object⟩
  | value => .error ⟨value.kind⟩

def tree : Source → List Node
  | nothing => []
  | html s => Node.parse s
  | markup m => Node.parse m.html
  | nodes list => list

def visualize (source : Source) : Text :=
  Node.visualize source.tree

def treeNotes : Source → List Note
  | html s => Node.parseNotes s
  | markup m => Node.parseNotes m.html
  | nothing | nodes _ => []

def visualizeNotes (source : Source) : List Note :=
  source.treeNotes ++ Node.appearanceNotesAll source.tree

end Source

end Hypertext
