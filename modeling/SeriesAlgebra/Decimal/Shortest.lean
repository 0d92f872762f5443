/-!
# The shortest decimal of a double

A finite double is `mantissa * 2 ^ power`, and every real number of a certain
interval around it rounds to it. Among the decimals of that interval we want one
with the fewest digits, and of those the one nearest to the double; which of two
equally near ones is taken is left open (`Tie`). So for one,
two, … seventeen digits we look at the two neighbours of the value on the grid of
decimals with that many digits: the first grid with a neighbour in the interval
wins. Everything is exact arithmetic on natural numbers.

The ends of the interval belong to it exactly when the mantissa is even, because
a tie rounds to the even mantissa.
-/

namespace SeriesAlgebra

/-- The non-negative number `digits * 10 ^ exponent`. -/
structure Decimal where
  digits : Nat
  exponent : Int
  deriving DecidableEq, Repr

/-- The non-negative number `mantissa * 2 ^ power`. -/
structure Dyadic where
  mantissa : Nat
  power : Int
  deriving DecidableEq, Repr

namespace Dyadic

/-- The magnitude of a finite double: sign dropped, hidden bit restored. -/
def ofFloat (x : Float) : Dyadic :=
  let bits : Nat := x.toBits.toNat
  let fraction : Nat := bits % Nat.pow 2 52
  let field : Nat := bits / Nat.pow 2 52 % Nat.pow 2 11
  if field = 0 then ⟨fraction, -1074⟩ else ⟨Nat.pow 2 52 + fraction, (field : Int) - 1075⟩

/-- Whether the neighbouring double below is at half the distance of the one above. -/
def narrowBelow (d : Dyadic) : Bool := d.mantissa = Nat.pow 2 52 && d.power ≠ -1074

/-- A grid of decimals seen from a dyadic: in units of which the value is
`4 * mantissa * unit` and a step of the grid `10 ^ exponent` is `step`. -/
structure Grid where
  unit : Nat
  step : Nat

/-- The grid `10 ^ exponent` seen from `d`. -/
def grid (d : Dyadic) (exponent : Int) : Grid where
  unit := Nat.pow 2 (d.power - 2).toNat * Nat.pow 10 (-exponent).toNat
  step := Nat.pow 2 (2 - d.power).toNat * Nat.pow 10 exponent.toNat

/-- Whether `count` steps of the grid round to `d`. -/
def rounds (d : Dyadic) (g : Grid) (count : Nat) : Bool :=
  let low := (4 * d.mantissa - if d.narrowBelow then 1 else 2) * g.unit
  let high := (4 * d.mantissa + 2) * g.unit
  let reached := count * g.step
  if d.mantissa % 2 = 0 then low ≤ reached && reached ≤ high else low < reached && reached < high

/-- Which of two neighbouring decimals is taken if they are equally near. -/
inductive Tie
  /-- The greater one. -/
  | upper
  /-- The one whose last digit is even. -/
  | even
  deriving DecidableEq, Repr

/-- Whether the lower of two equally near decimals is taken, which is `below` steps of the grid. -/
def Tie.takesLower (below : Nat) : Tie → Bool
  | upper => false
  | even => below % 2 == 0

/-- The number of decimal digits of a positive number. -/
def digitCount (n : Nat) : Nat := (Nat.toDigits 10 n).length

/-- The exponent of the first decimal digit of a positive value. Below one it is the number of
digits of the largest whole number that is less than the reciprocal, with a minus. -/
def leadingExponent (d : Dyadic) : Int :=
  let numerator := d.mantissa * Nat.pow 2 d.power.toNat
  let denominator := Nat.pow 2 (-d.power).toNat
  if denominator ≤ numerator then (digitCount (numerator / denominator) : Int) - 1
  else -(digitCount ((denominator - 1) / numerator) : Int)

/-- The neighbour of `d` with `places` digits that rounds to `d`, the nearer one if both do. -/
def neighbour? (d : Dyadic) (tie : Tie) (places : Nat) : Option Decimal :=
  let exponent := d.leadingExponent - (places - 1 : Nat)
  let g := d.grid exponent
  let value := 4 * d.mantissa * g.unit
  let below := value / g.step
  let above := below + 1
  let toBelow := value - below * g.step
  let toAbove := above * g.step - value
  let takesBelow := toBelow < toAbove || (toBelow == toAbove && tie.takesLower below)
  match d.rounds g below, d.rounds g above with
  | true, true => some ⟨if takesBelow then below else above, exponent⟩
  | true, false => some ⟨below, exponent⟩
  | false, true => some ⟨above, exponent⟩
  | false, false => none

/-- The shortest decimal that rounds to a positive dyadic. -/
def shortest (d : Dyadic) (tie : Tie) : Decimal :=
  if d.mantissa = 0 then ⟨0, 0⟩
  else ((List.range' 1 17).findSome? (d.neighbour? tie)).getD ⟨d.mantissa, d.power⟩

end Dyadic

/-- The decimal digits of a number without the zeros at their end, and how many were dropped. -/
def Decimal.trimmedDigits (d : Decimal) : List Char × Nat :=
  let all := (Nat.toDigits 10 d.digits).reverse
  let kept := all.dropWhile (· == '0')
  (kept.reverse, all.length - kept.length)

end SeriesAlgebra
