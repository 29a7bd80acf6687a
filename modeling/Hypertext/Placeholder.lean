import Hypertext.Json.Datum
import Hypertext.Text.Reference

/-!
# Placeholders

What can be put into a template. Only markup goes in as it is; all else is escaped, once,
however deeply it is nested in sequences.
-/

namespace Hypertext

set_option autoImplicit false

inductive Placeholder where
  | absent
  | markup (m : Markup)
  | sequence (items : List Placeholder)
  | json (value : Json.Value)
  | text (t : Text)
  deriving Repr

namespace Placeholder

mutual

/-- The markup text that a placeholder contributes. -/
def resolve : Placeholder → Text
  | absent => []
  | markup m => m.html
  | sequence items => resolveAll items
  | json value => value.compact.escape
  | text t => t.escape

def resolveAll : List Placeholder → Text
  | [] => []
  | item :: rest => item.resolve ++ resolveAll rest

end

@[simp] theorem resolveAll_append (items more : List Placeholder) :
    resolveAll (items ++ more) = resolveAll items ++ resolveAll more := by
  induction items with
  | nil => rfl
  | cons item rest ih => simp [resolveAll, ih]

mutual

/-- The same text before it is escaped; markup counts as it is. -/
def plain : Placeholder → Text
  | absent => []
  | markup m => m.html
  | sequence items => plainAll items
  | json value => value.compact
  | text t => t

def plainAll : List Placeholder → Text
  | [] => []
  | item :: rest => item.plain ++ plainAll rest

end

mutual

/-- The placeholders that are no sequences, in the order in which they contribute. -/
def leaves : Placeholder → List Placeholder
  | sequence items => leavesAll items
  | leaf => [leaf]

def leavesAll : List Placeholder → List Placeholder
  | [] => []
  | item :: rest => item.leaves ++ leavesAll rest

end

/-- Whether there is no markup at any depth. -/
def IsMarkupFree (p : Placeholder) : Prop :=
  ∀ m, markup m ∉ p.leaves

def ofDatum (d : Json.Datum) : Except Json.EncodeError Placeholder :=
  return json (← d.encode)

mutual

/-- A value by its shape: null is absent, an array is a sequence, an object is encoded, and a
scalar is its text. -/
def ofValue : Json.Value → Placeholder
  | .null => absent
  | .array items => sequence (ofValues items)
  | .object members => json (.object members)
  | value => text value.plainText

def ofValues : List Json.Value → List Placeholder
  | [] => []
  | value :: rest => ofValue value :: ofValues rest

end

def ofOption (p : Option Placeholder) : Placeholder :=
  p.getD absent

def ofBool (b : Bool) : Placeholder :=
  text (if b then "true".toList else "false".toList)

def ofChar (c : Char) : Placeholder :=
  text [c]

def ofInt (n : Int) : Placeholder :=
  text (integerText n)

def ofFloat (x : BinaryNumber) : Placeholder :=
  text x.canonicalText

end Placeholder

end Hypertext
