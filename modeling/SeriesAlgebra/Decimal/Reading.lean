import SeriesAlgebra.Decimal.Shortest

/-!
# Reading numbers

The grammar of a number is the usual one: a sign, digits with a point somewhere,
an exponent. Every part but the digits may be missing, and the words `inf`,
`infinity` and `nan` are read in any case. A decimal of any size is accepted and
rounded to the nearest double; one too large is infinite.

Rounding is exact arithmetic on natural numbers, like the search for the shortest
decimal: the number is a fraction, it is measured in units of the power of two that
gives the mantissa 53 bits (`Dyadic.unitPower`), and the units are rounded to a
whole number, halves to the even one.

Integers have a sign and digits, and must fit into 64 bits.
-/

namespace SeriesAlgebra

namespace Dyadic

/-- The whole number nearest to a fraction, the even one of two equally near. -/
def roundQuotient (numerator denominator : Nat) : Nat :=
  let quotient := numerator / denominator
  let rest := numerator % denominator
  if 2 * rest < denominator then quotient
  else if denominator < 2 * rest then quotient + 1
  else quotient + quotient % 2

/-- The power of two in units of which a positive fraction is from `2 ^ 52` to `2 ^ 53`, or the
least power there is. -/
def unitPower (numerator denominator : Nat) : Int :=
  let guess : Int := (numerator.log2 : Int) - denominator.log2 - 52
  let isHigh := numerator * Nat.pow 2 (-guess).toNat < Nat.pow 2 52 * (denominator * Nat.pow 2 guess.toNat)
  max (if isHigh then guess - 1 else guess) (-1074)

/-- A positive fraction rounded to a mantissa of 53 bits. -/
def ofFraction (numerator denominator : Nat) : Dyadic :=
  let power := unitPower numerator denominator
  ⟨roundQuotient (numerator * Nat.pow 2 (-power).toNat) (denominator * Nat.pow 2 power.toNat), power⟩

/-- The bits of a double that is infinite. -/
def infiniteBits : Nat := 2047 * Nat.pow 2 52

/-- The bits of the double of a dyadic, sign aside. A mantissa of 53 bits brings its highest bit
into the exponent, and a mantissa that was rounded up to `2 ^ 53` the next exponent. -/
def toBits (d : Dyadic) : Nat := min infiniteBits ((d.power + 1074).toNat * Nat.pow 2 52 + d.mantissa)

/-- The double of a dyadic; infinite if it is too large. -/
def toFloat (d : Dyadic) : Float := Float.ofBits (UInt64.ofNat d.toBits)

end Dyadic

namespace Decimal

/-- The value of a run of decimal digits. -/
def digitsValue (ds : List Char) : Nat :=
  ds.foldl (fun n c => 10 * n + (c.toNat - '0'.toNat)) 0

/-- The sign in front of a number, and what follows it. -/
def takeSign : List Char → Bool × List Char
  | '-' :: rest => (true, rest)
  | '+' :: rest => (false, rest)
  | rest => (false, rest)

/-- The longest run of digits in front, and what follows it. -/
def takeDigits (cs : List Char) : List Char × List Char :=
  (cs.takeWhile Char.isDigit, cs.dropWhile Char.isDigit)

/-- The exponent at the end of a number: nothing, or `e` with a signed run of digits. -/
def readExponent? : List Char → Option Int
  | [] => some 0
  | c :: rest =>
    if c = 'e' ∨ c = 'E' then
      let (negative, unsigned) := takeSign rest
      let (ds, after) := takeDigits unsigned
      if ds.isEmpty || !after.isEmpty then none
      else some (if negative then -(digitsValue ds : Int) else digitsValue ds)
    else none

/-- The double nearest to `mantissa * 10 ^ exponent`. Far outside the range of doubles the
answer is known without looking at the digits. -/
def nearest (mantissa : Nat) (exponent : Int) : Float :=
  if mantissa = 0 then 0.0
  else
    let leading := exponent + (Nat.toDigits 10 mantissa).length
    if 400 < leading then 1.0 / 0.0
    else if leading < -400 then 0.0
    else (Dyadic.ofFraction (mantissa * Nat.pow 10 exponent.toNat) (Nat.pow 10 (-exponent).toNat)).toFloat

/-- The magnitude written by digits, a point and an exponent. -/
def readMagnitude? (cs : List Char) : Option Float :=
  let (whole, afterWhole) := takeDigits cs
  let (fraction, rest) := match afterWhole with
    | '.' :: afterPoint => takeDigits afterPoint
    | _ => ([], afterWhole)
  if whole.isEmpty && fraction.isEmpty then none
  else (readExponent? rest).map fun exponent =>
    nearest (digitsValue (whole ++ fraction)) (exponent - fraction.length)

/-- The magnitude written by one of the words for what is no finite number. -/
def readWord? (cs : List Char) : Option Float :=
  match cs.map Char.toLower with
  | ['i', 'n', 'f'] => some (1.0 / 0.0)
  | ['i', 'n', 'f', 'i', 'n', 'i', 't', 'y'] => some (1.0 / 0.0)
  | ['n', 'a', 'n'] => some (0.0 / 0.0)
  | _ => none

/-- The double written by a text, all of which must be used. -/
def readFloat? (cs : List Char) : Option Float :=
  let (negative, unsigned) := takeSign cs
  let magnitude := (readWord? unsigned).orElse fun _ => readMagnitude? unsigned
  magnitude.map fun x => if negative then -x else x

/-- Whether an integer fits into 64 bits with sign. -/
def fitsInt64 (n : Int) : Bool := -Int.pow 2 63 ≤ n && n < Int.pow 2 63

/-- An integer of 64 bits, if it fits. -/
def toInt64? (n : Int) : Option Int64 := if fitsInt64 n then some (Int64.ofInt n) else none

/-- The integer written by a text: a sign and digits that fit into 64 bits. -/
def readInt? (cs : List Char) : Option Int64 :=
  let (negative, unsigned) := takeSign cs
  let (ds, rest) := takeDigits unsigned
  if ds.isEmpty || !rest.isEmpty then none
  else toInt64? (if negative then -(digitsValue ds : Int) else digitsValue ds)

end Decimal

end SeriesAlgebra
