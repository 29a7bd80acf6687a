import Hypertext.Number.Decimal
import Hypertext.Text.Basic

/-!
# Number texts

How integers and shortest decimals are written. A form decides which numbers are written
with an exponent; the rest is the same for all. The canonical form of a number is the one
that a reader sees; the form inside structured data is defined with that data.
-/

namespace Hypertext

set_option autoImplicit false

def naturalText (n : Nat) : Text :=
  Nat.toDigits 10 n

def integerText : Int → Text
  | .ofNat n => naturalText n
  | .negSucc n => '-' :: naturalText (n + 1)

namespace Decimal

/-- The power of ten of the first digit. -/
def leading (d : Decimal) : Int :=
  d.exponent + (naturalText d.digits).length - 1

/-- All places written out. With `fraction`, an integral number ends in `.0`. -/
def plain (d : Decimal) (fraction : Bool) : Text :=
  let digits := naturalText d.digits
  if 0 ≤ d.exponent then
    digits ++ List.replicate d.exponent.toNat '0' ++ (if fraction then ['.', '0'] else [])
  else if 0 ≤ d.leading then
    digits.take (d.leading.toNat + 1) ++ '.' :: digits.drop (d.leading.toNat + 1)
  else '0' :: '.' :: (List.replicate (-d.leading - 1).toNat '0' ++ digits)

/-- One digit before the point, and an exponent that always has a sign. -/
def scientific (d : Decimal) : Text :=
  let mantissa := match naturalText d.digits with
    | first :: second :: rest => first :: '.' :: second :: rest
    | digits => digits
  mantissa ++ 'e' :: ((if d.leading < 0 then [] else ['+']) ++ integerText d.leading)

end Decimal

structure NumberForm where
  tie : Tie
  fraction : Bool
  isPlain : Magnitude → Decimal → Bool

namespace NumberForm

def write (form : NumberForm) (x : Magnitude) : Text :=
  let d := x.shortest form.tie
  if form.isPlain x d then d.plain form.fraction else d.scientific

/-- The number of `binary64` nearest to one millionth. -/
def millionth : Magnitude :=
  ⟨4722366482869645, -72, false⟩

/-- The canonical form is plain from one millionth to below `10 ^ 21`, and an integral
number has no fraction. -/
def canonical : NumberForm where
  tie := .up
  fraction := false
  isPlain x _ := !x.lt millionth && x.lt ⟨1000000000000000000000, 0, false⟩

end NumberForm

def signText (negative : Bool) : Text :=
  if negative then ['-'] else []

/-- The canonical text of a number. Zero has no sign. -/
def BinaryNumber.canonicalText : BinaryNumber → Text
  | .notANumber => "NaN"
  | .infinite negative => signText negative ++ "Infinity".toList
  | .finite negative x =>
    if x.significand = 0 then ['0'] else signText negative ++ NumberForm.canonical.write x

end Hypertext
