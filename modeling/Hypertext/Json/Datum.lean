import Hypertext.Json.Value
import Hypertext.Markup

/-!
# Encoding data as JSON

A datum is what can be asked to be a JSON value. Not all of it can: keys have to be texts or
scalars with a text, and integers have to fit into 64 bits, signed or unsigned.
-/

namespace Hypertext.Json

set_option autoImplicit false

inductive EncodeError where
  | keyNotText
  | keyNotFinite
  | numberOutOfRange
  deriving DecidableEq, Repr

def EncodeError.message : EncodeError → String
  | keyNotText => "key must be a string"
  | keyNotFinite => "float key must be finite (got NaN or +/-inf)"
  | numberOutOfRange => "number out of range"

/-- Data to be encoded. A record has texts as keys, a map has any data there. -/
inductive Datum where
  | null
  | bool (b : Bool)
  | integer (n : Int)
  | double (bits : Nat)
  | single (bits : Nat)
  | char (c : Char)
  | string (s : Text)
  | markup (m : Markup)
  | present (d : Datum)
  | list (items : List Datum)
  | record (fields : List (Text × Datum))
  | map (entries : List (Datum × Datum))
  deriving Repr

/-- The least signed integer of 64 bits. -/
def leastInteger : Int := -9223372036854775808

/-- The greatest unsigned integer of 64 bits. -/
def greatestInteger : Int := 18446744073709551615

/-- Markup is an object with its text under this key. -/
def markupKey : Text := "html"

def ofMarkup (m : Markup) : Value :=
  .object [(markupKey, .string m.html)]

/-- Markup from a value: from an object with a text under its key, whatever else is in it, or
from an array of one text. -/
def toMarkup? : Value → Option Markup
  | .object members =>
    match lookup? markupKey members with
    | some (.string html) => some ⟨html⟩
    | _ => none
  | .array [.string html] => some ⟨html⟩
  | _ => none

/-- A float of `binary64` as a value; what is not finite becomes null. -/
def ofDouble (bits : Nat) : Value :=
  match binary64.decode bits with
  | .finite .. => .float bits
  | .infinite _ | .notANumber => .null

namespace Datum

def key : Datum → Except EncodeError Text
  | string s => .ok s
  | char c => .ok [c]
  | bool b => .ok (if b then "true".toList else "false".toList)
  | integer n => .ok (integerText n)
  | double bits => (floatText? doubleForm (binary64.decode bits)).elim (.error .keyNotFinite) .ok
  | single bits => (floatText? singleForm (binary32.decode bits)).elim (.error .keyNotFinite) .ok
  | _ => .error .keyNotText

mutual

/-- The value of a datum. The entries of a map are taken in order, each key before its value,
and the first failure counts. -/
def encode : Datum → Except EncodeError Value
  | null => .ok .null
  | bool b => .ok (.bool b)
  | integer n =>
    if leastInteger ≤ n ∧ n ≤ greatestInteger then .ok (.integer n)
    else .error .numberOutOfRange
  | double bits => .ok (ofDouble bits)
  | single bits => .ok (ofDouble (widen bits))
  | char c => .ok (.string [c])
  | string s => .ok (.string s)
  | markup m => .ok (ofMarkup m)
  | present d => d.encode
  | list items => do return .array (← encodeItems items)
  | record fields => do return .object (ofEntries (← encodeFields fields))
  | map entries => do return .object (ofEntries (← encodeEntries entries))

def encodeItems : List Datum → Except EncodeError (List Value)
  | [] => .ok []
  | item :: rest => do
    let value ← item.encode
    return value :: (← encodeItems rest)

def encodeFields : List (Text × Datum) → Except EncodeError (List (Text × Value))
  | [] => .ok []
  | (key, d) :: rest => do
    let value ← d.encode
    return (key, value) :: (← encodeFields rest)

def encodeEntries : List (Datum × Datum) → Except EncodeError (List (Text × Value))
  | [] => .ok []
  | (k, d) :: rest => do
    let key ← k.key
    let value ← d.encode
    return (key, value) :: (← encodeEntries rest)

end

end Datum

end Hypertext.Json
