import Hypertext.Template.Literal

/-!
# Numerals of program text

Digits with underscores between them, in base ten with a fraction and an exponent, or as
whole numbers in another base. A word right behind the digits belongs to the numeral.
-/

namespace Hypertext.CallText

set_option autoImplicit false

def isDigitPart (c : Char) : Bool :=
  c.isDigit || c == '_'

/-- The number of characters of an exponent: a sign and at least one digit, with underscores. -/
def exponentLength? : Text → Option Nat
  | [] => none
  | e :: s =>
    if e = 'e' ∨ e = 'E' then
      let gap := (s.takeWhile (· == '_')).length
      let sign := if (s.drop gap).head? = some '+' ∨ (s.drop gap).head? = some '-' then 1 else 0
      let digits := (s.drop (gap + sign)).takeWhile isDigitPart
      if digits.any Char.isDigit then some (1 + gap + sign + digits.length) else none
    else none

/-- The number of characters of a decimal numeral with a point or an exponent, in a text that
starts with a digit. A point does not stand before another one or before a word. -/
def fractionLength? (s : Text) : Option Nat :=
  let whole := (s.takeWhile isDigitPart).length
  match s.drop whole with
  | '.' :: t =>
    if t.head? = some '.' ∨ 0 < wordLength t then none
    else
      let n := whole + 1 + (t.takeWhile isDigitPart).length
      some (n + (exponentLength? (s.drop n)).getD 0)
  | t => (exponentLength? t).map (whole + ·)

/-- The base of a whole number, and how many characters tell it. -/
def baseOf : Text → Nat × Nat
  | '0' :: 'x' :: _ => (16, 2)
  | '0' :: 'o' :: _ => (8, 2)
  | '0' :: 'b' :: _ => (2, 2)
  | _ => (10, 0)

/-- The number of characters of a whole number. A decimal digit that its base does not have is
an error, while a letter may start a word. -/
def wholeLength? (s : Text) : Option Nat :=
  let (base, start) := baseOf s
  let digits := (s.drop start).takeWhile fun c => isDigitPart c || base = 16 && (hexDigit? c).isSome
  if digits.all (fun c => ((hexDigit? c).getD 0) < base) ∧ digits.any (· != '_') then
    some (start + digits.length)
  else none

/-- Whether a numeral may have so many characters in front of the word right behind it: what is
behind that word does not go on like one. -/
def isNumeralLength (s : Text) (n : Nat) : Bool :=
  !(s.drop (literalLength s n)).head?.any isIdentifierPart

/-- The number of characters of a numeral without the word right behind it. -/
def numeralLength? (s : Text) : Option Nat :=
  if s.head?.any Char.isDigit then
    ((fractionLength? s).filter (isNumeralLength s)).or
      ((wholeLength? s).filter (isNumeralLength s))
  else none

end Hypertext.CallText
