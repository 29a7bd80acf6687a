/-!
# Binary floating-point numbers

The bits of the two interchange formats taken apart into exact integers: a finite number is
`significand * 2 ^ exponent` with a sign. Nothing here rounds.
-/

namespace Hypertext

set_option autoImplicit false

/-- The widths of the fields below the sign bit. -/
structure BinaryFormat where
  exponentBits : Nat
  fractionBits : Nat
  deriving DecidableEq, Repr

def binary32 : BinaryFormat := ⟨8, 23⟩

def binary64 : BinaryFormat := ⟨11, 52⟩

/-- The absolute value `significand * 2 ^ exponent` of a finite number. When the significand
is the least of its binade, the next smaller number is only half as far as the next greater
one; `narrowBelow` says so. -/
structure Magnitude where
  significand : Nat
  exponent : Int
  narrowBelow : Bool
  deriving DecidableEq, Repr

/-- What the bits of a floating-point number stand for. -/
inductive BinaryNumber where
  | finite (negative : Bool) (magnitude : Magnitude)
  | infinite (negative : Bool)
  | notANumber
  deriving DecidableEq, Repr

namespace BinaryFormat

def bias (format : BinaryFormat) : Nat :=
  Nat.pow 2 (format.exponentBits - 1) - 1

def decode (format : BinaryFormat) (bits : Nat) : BinaryNumber :=
  let fractions := Nat.pow 2 format.fractionBits
  let exponents := Nat.pow 2 format.exponentBits
  let fraction := bits % fractions
  let field := bits / fractions % exponents
  let negative := bits / (fractions * exponents) % 2 = 1
  let least : Int := 1 - format.bias - format.fractionBits
  if field = exponents - 1 then
    if fraction = 0 then .infinite negative else .notANumber
  else if field = 0 then .finite negative ⟨fraction, least, false⟩
  else .finite negative ⟨fractions + fraction, least + (field - 1), fraction = 0 && 1 < field⟩

end BinaryFormat

namespace Magnitude

def numerator (x : Magnitude) : Nat :=
  x.significand * Nat.pow 2 x.exponent.toNat

def denominator (x : Magnitude) : Nat :=
  Nat.pow 2 (-x.exponent).toNat

def lt (x y : Magnitude) : Bool :=
  x.numerator * y.denominator < y.numerator * x.denominator

end Magnitude

/-- The bits in the format `binary64` of a number in the format `binary32`, which it holds
exactly. A number without a leading one bit gets one. -/
def widen (bits : Nat) : Nat :=
  let sign := bits / Nat.pow 2 31 % 2
  let field := bits / Nat.pow 2 23 % 256
  let fraction := bits % Nat.pow 2 23
  let word (field fraction : Nat) : Nat :=
    sign * Nat.pow 2 63 + field * Nat.pow 2 52 + fraction
  if field = 255 then word 2047 (fraction * Nat.pow 2 29)
  else if field ≠ 0 then word (field + 896) (fraction * Nat.pow 2 29)
  else if fraction = 0 then word 0 0
  else
    let top := fraction.log2
    word (top + 874) ((fraction - Nat.pow 2 top) * Nat.pow 2 (52 - top))

end Hypertext
