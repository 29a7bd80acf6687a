import Hypertext.Number.Binary

/-!
# Shortest decimals

Every finite number of a format is the nearest one to all reals of an interval around it.
Among the decimals in that interval, the ones with the fewest digits are the multiples of the
greatest power of ten that has a multiple there; of these the nearest is taken. The
arithmetic is exact.
-/

namespace Hypertext

set_option autoImplicit false

/-- Which of two neighbours equally far is taken. -/
inductive Tie where
  | up
  | toEven
  deriving DecidableEq, Repr

/-- The decimal `digits * 10 ^ exponent`. -/
structure Decimal where
  digits : Nat
  exponent : Int
  deriving DecidableEq, Repr

namespace Magnitude

/-- A value in quarters of the unit `2 ^ exponent`, as a number of steps of `10 ^ power`:
numerator and denominator. -/
def steps (x : Magnitude) (quarters : Nat) (power : Int) : Nat × Nat :=
  (quarters * Nat.pow 2 x.exponent.toNat * Nat.pow 10 (-power).toNat,
    4 * Nat.pow 2 (-x.exponent).toNat * Nat.pow 10 power.toNat)

/-- Whether so many steps of `10 ^ power` are in the interval that rounds to `x`. The ends
belong to it when the significand is even. -/
def covers (x : Magnitude) (power : Int) (count : Nat) : Bool :=
  let (low, unit) := x.steps (4 * x.significand - if x.narrowBelow then 1 else 2) power
  let (high, _) := x.steps (4 * x.significand + 2) power
  if x.significand % 2 = 0 then low ≤ count * unit && count * unit ≤ high
  else low < count * unit && count * unit < high

/-- The number of steps of `10 ^ power` nearest to `x` among those that round to it. -/
def nearestStep? (tie : Tie) (x : Magnitude) (power : Int) : Option Nat :=
  let (value, unit) := x.steps (4 * x.significand) power
  let below := value / unit
  let rest := value % unit
  match x.covers power below, x.covers power (below + 1) with
  | false, false => none
  | true, false => some below
  | false, true => some (below + 1)
  | true, true =>
    if 2 * rest < unit then some below
    else if unit < 2 * rest then some (below + 1)
    else match tie with
      | .up => some (below + 1)
      | .toEven => some (if below % 2 = 0 then below else below + 1)

/-- The powers of ten that can be the last place of a number, the greatest first. -/
def lastPlaces : List Int :=
  (List.range 633).map fun k : Nat => 308 - (k : Int)

/-- The shortest decimal that rounds to a nonzero `x`, the nearest if there are several. -/
def shortest (tie : Tie) (x : Magnitude) : Decimal :=
  (lastPlaces.findSome? fun power =>
    (x.nearestStep? tie power).map fun count => ⟨count, power⟩).getD ⟨0, 0⟩

end Magnitude

end Hypertext
