import SeriesAlgebra.Decimal.Shortest

/-!
# Writing a double

A double is written with the digits of its shortest decimal. What is left to
decide is the layout: from which size on an exponent is written and with which
sign, whether a whole number keeps a fraction, and which of two equally near
decimals is taken. A `NumberLayout` holds these decisions, and the three layouts in
use are `NumberLayout.exact` (formula text and answers),
`NumberLayout.plain` (cells of a printed table) and `NumberLayout.document`
(numbers of a JSON document).
-/

namespace SeriesAlgebra

/-- How a finite double is laid out. -/
structure NumberLayout where
  /-- The exponents of the leading digit that are written without an exponent;
  every exponent when there are no bounds. -/
  positional : Option (Int × Int)
  /-- Whether a whole number written without an exponent ends in `.0`. -/
  keepsPoint : Bool
  /-- Whether an exponent that is not negative has a plus sign. -/
  hasPlus : Bool
  /-- Which of two equally near shortest decimals is written. -/
  tie : Dyadic.Tie

namespace NumberLayout

/-- A number below `10 ^ -4` or from `10 ^ 16` on has an exponent, and every other a point. -/
def exact : NumberLayout := ⟨some (-4, 15), true, false, .upper⟩

/-- Never an exponent, and no point in a whole number. -/
def plain : NumberLayout := ⟨none, false, false, .upper⟩

/-- A number below `10 ^ -5` or from `10 ^ 16` on has an exponent with its sign, and every other a
point. -/
def document : NumberLayout := ⟨some (-5, 15), true, true, .even⟩

/-- The digits `ds`, the first of which stands for `10 ^ leading`, without an exponent. -/
def writePositional (layout : NumberLayout) (ds : List Char) (leading : Int) : List Char :=
  if leading < 0 then
    '0' :: '.' :: (List.replicate (-leading - 1).toNat '0' ++ ds)
  else
    let whole := leading.toNat + 1
    if ds.length ≤ whole then
      ds ++ List.replicate (whole - ds.length) '0' ++ if layout.keepsPoint then ['.', '0'] else []
    else
      ds.take whole ++ '.' :: ds.drop whole

/-- The digits `ds`, the first of which stands for `10 ^ leading`, with an exponent. -/
def writeScientific (layout : NumberLayout) (ds : List Char) (leading : Int) : List Char :=
  let fraction := match ds.drop 1 with
    | [] => []
    | rest => '.' :: rest
  let sign := if layout.hasPlus ∧ 0 ≤ leading then ['+'] else []
  ds.take 1 ++ fraction ++ 'e' :: sign ++ (toString leading).toList

/-- A magnitude laid out. -/
def writeDecimal (layout : NumberLayout) (d : Decimal) : List Char :=
  if d.digits = 0 then '0' :: if layout.keepsPoint then ['.', '0'] else []
  else
    let (ds, dropped) := d.trimmedDigits
    let leading := d.exponent + dropped + ds.length - 1
    let isPositional := match layout.positional with
      | none => true
      | some (low, high) => decide (low ≤ leading ∧ leading ≤ high)
    if isPositional then layout.writePositional ds leading else layout.writeScientific ds leading

/-- A double laid out; the sign of zero is written, and what is no number has a word. -/
def write (layout : NumberLayout) (x : Float) : String :=
  if x.isNaN then "NaN"
  else
    let sign := if x.toBits.toNat / Nat.pow 2 63 = 1 then "-" else ""
    if x.isInf then sign ++ "inf"
    else sign ++ String.ofList (layout.writeDecimal ((Dyadic.ofFloat x).shortest layout.tie))

end NumberLayout

/-- The exact text of a double: reading it gives the double back. -/
def Decimal.exactText (x : Float) : String := NumberLayout.exact.write x

end SeriesAlgebra
