/-!
# Types of values

Formulas are typed by seven tags. Whether an argument fits a place is decided by
`TypeTag.accepts`: an integer fits where a number is wanted, and `any` fits
everywhere and takes everything, so that operators with loose signatures do not
get in the way of others.
-/

namespace SeriesAlgebra

/-- The type of a value. -/
inductive TypeTag
  | int
  | number
  | str
  | timestamp
  | series
  | table
  | any
  deriving DecidableEq, Repr

namespace TypeTag

/-- The name of a type. -/
def name : TypeTag → String
  | int => "int"
  | number => "number"
  | str => "str"
  | timestamp => "timestamp"
  | series => "series"
  | table => "table"
  | any => "any"

/-- Whether a value of type `actual` fits a place of type `expected`. -/
def accepts (expected actual : TypeTag) : Bool :=
  expected == actual || expected == any || actual == any || (expected == number && actual == int)

/-- Whether values of the type are numbers. -/
def isNumeric (t : TypeTag) : Bool := t == int || t == number

/-- Several types, with bars between them. -/
def describe (types : List TypeTag) : String := "|".intercalate (types.map name)

/-- Whether a value fits one of several types. -/
def anyAccepts (expected : List TypeTag) (actual : TypeTag) : Bool := expected.any (·.accepts actual)

/-- **The type of arithmetic** on arguments of given types: a table if there is one, else a series
if there is one, else a number, which is an integer if all arguments are. -/
def broadcast (args : List TypeTag) : TypeTag :=
  if args.contains any then any
  else if args.contains table then table
  else if args.contains series then series
  else if !args.isEmpty && args.all (· == int) then int
  else number

end TypeTag

end SeriesAlgebra
