import Hypertext.Json.Datum
import Hypertext.Text.Reference

/-!
# Attribute lists

An attribute list from a mapping of names to values, in the order of the mapping. Values
that are null or false leave their attribute out, `true` leaves only the name; lists and
styles leave out their own null and false members.
-/

namespace Hypertext.AttributeList

set_option autoImplicit false

/-- Null and false do not show. -/
def isVisible : Json.Value → Bool
  | .null | .bool false => false
  | _ => true

/-- The items of a class list, each escaped by itself, separated by spaces. -/
def classList (items : List Json.Value) : Text :=
  Text.joinWith [' '] ((items.filter isVisible).map fun item => item.plainText.escape)

/-- The declarations of an inline style, names and values escaped by themselves. -/
def inlineStyle (properties : List (Text × Json.Value)) : Text :=
  Text.joinWith "; " ((properties.filter fun property => isVisible property.2).map
    fun (property, value) => property.escape ++ ": ".toList ++ value.plainText.escape)

def styleKey : Text := "style"

/-- What stands between the quotes of an attribute. -/
def valueMarkup (key : Text) : Json.Value → Text
  | .array items => classList items
  | .object members =>
    if key = styleKey then inlineStyle members else (Json.Value.object members).compact.escape
  | value => value.plainText.escape

def entryText (key : Text) : Json.Value → Text
  | .bool true => key.escape
  | value => key.escape ++ '=' :: '"' :: (valueMarkup key value ++ ['"'])

/-- The attribute list of a mapping. No separator is written before anything else is. -/
def ofMembers (members : List (Text × Json.Value)) : Markup :=
  let entries := (members.filter fun member => isVisible member.2).map
    fun (key, value) => entryText key value
  ⟨Text.joinWith [' '] (entries.dropWhile List.isEmpty)⟩

/-- Why a datum has no attribute list. -/
inductive Error where
  | encoding (cause : Json.EncodeError)
  | notMapping (found : Json.Kind)
  deriving DecidableEq, Repr

namespace Error

def message : Error → String
  | encoding cause => "JSON encoding failed: " ++ cause.message
  | notMapping found => "attribute configuration must be a mapping, got " ++ found.name

def cause? : Error → Option Json.EncodeError
  | encoding cause => some cause
  | notMapping _ => none

end Error

/-- The attribute list of any datum that is encoded as an object. -/
def ofDatum (d : Json.Datum) : Except Error Markup :=
  match d.encode with
  | .error cause => .error (.encoding cause)
  | .ok (.object members) => .ok (ofMembers members)
  | .ok value => .error (.notMapping value.kind)

end Hypertext.AttributeList
