import Hypertext.Number.Form

/-!
# JSON values

The values of the data format and their compact text: no spaces, members in their order,
strings with the fewest escapes. A float is kept apart from the integer of the same value.
-/

namespace Hypertext.Json

set_option autoImplicit false

/-- A value. Floats are words of `binary64`; only finite ones occur. -/
inductive Value where
  | null
  | bool (b : Bool)
  | integer (n : Int)
  | float (bits : Nat)
  | string (s : Text)
  | array (items : List Value)
  | object (members : List (Text × Value))
  deriving Repr

inductive Kind where
  | null
  | boolean
  | number
  | string
  | array
  | object
  deriving DecidableEq, Repr

namespace Kind

def name : Kind → String
  | null => "null"
  | boolean => "boolean"
  | number => "number"
  | string => "string"
  | array => "array"
  | object => "object"

end Kind

namespace Value

def kind : Value → Kind
  | null => .null
  | bool _ => .boolean
  | integer _ | float _ => .number
  | string _ => .string
  | array _ => .array
  | object _ => .object

end Value

/-- A member set: a new key comes last, a known one keeps its place and gets the new value. -/
def insert (key : Text) (value : Value) : List (Text × Value) → List (Text × Value)
  | [] => [(key, value)]
  | (k, v) :: rest => if k = key then (key, value) :: rest else (k, v) :: insert key value rest

/-- The members of an object from entries in which keys may come again. -/
def ofEntries (entries : List (Text × Value)) : List (Text × Value) :=
  entries.foldl (fun members (key, value) => insert key value members) []

def lookup? (key : Text) (members : List (Text × Value)) : Option Value :=
  (members.find? fun member => member.1 = key).map Prod.snd

def escapeChar (c : Char) : Text :=
  if c = '"' then ['\\', '"']
  else if c = '\\' then ['\\', '\\']
  else if c = '\n' then ['\\', 'n']
  else if c = '\r' then ['\\', 'r']
  else if c = '\t' then ['\\', 't']
  else if c = '\x08' then ['\\', 'b']
  else if c = '\x0c' then ['\\', 'f']
  else if c.toNat < 0x20 then
    ['\\', 'u', '0', '0', Nat.digitChar (c.toNat / 16), Nat.digitChar (c.toNat % 16)]
  else [c]

def stringText (s : Text) : Text :=
  '"' :: (s.flatMap escapeChar ++ ['"'])

/-- Floats of `binary64` are plain while the first digit is at a place from -5 to 15, and
integral ones keep a fraction. -/
def doubleForm : NumberForm where
  tie := .toEven
  fraction := true
  isPlain _ d := -5 ≤ d.leading && d.leading ≤ 15

/-- Floats of `binary32` occur in keys only, and are plain for places from -6 to 12. -/
def singleForm : NumberForm where
  tie := .toEven
  fraction := true
  isPlain _ d := -6 ≤ d.leading && d.leading ≤ 12

/-- A float, if it is finite. Zero keeps its sign. -/
def floatText? (form : NumberForm) : BinaryNumber → Option Text
  | .finite negative x =>
    some (signText negative ++ if x.significand = 0 then "0.0".toList else form.write x)
  | .infinite _ | .notANumber => none

namespace Value

mutual

def compact : Value → Text
  | null => "null"
  | bool b => if b then "true".toList else "false".toList
  | integer n => integerText n
  | float bits => (floatText? doubleForm (binary64.decode bits)).getD "null".toList
  | string s => stringText s
  | array [] => ['[', ']']
  | array (item :: rest) => '[' :: (item.compact ++ compactItems rest)
  | object [] => ['\x7b', '\x7d']
  | object ((key, value) :: rest) =>
    '\x7b' :: (stringText key ++ ':' :: (value.compact ++ compactMembers rest))

def compactItems : List Value → Text
  | [] => [']']
  | item :: rest => ',' :: (item.compact ++ compactItems rest)

def compactMembers : List (Text × Value) → Text
  | [] => ['\x7d']
  | (key, value) :: rest =>
    ',' :: (stringText key ++ ':' :: (value.compact ++ compactMembers rest))

end

/-- The text of a value for a reader: strings without quotes, floats in canonical form,
nothing for null. Containers are compact data. -/
def plainText : Value → Text
  | null => []
  | string s => s
  | float bits => (binary64.decode bits).canonicalText
  | value => value.compact

end Value

end Hypertext.Json
