import SeriesAlgebra.Evaluation.Value

/-!
# Arithmetic of values

The operators `+`, `*` and `/` work on any two values that are numbers, series or
tables. The larger kind wins: a scalar meets every value of a series, a series every
column of a table. Two integers give an integer as long as it fits into 64 bits, and
a double otherwise; division always gives a double.
-/

namespace SeriesAlgebra

namespace Value

/-- Arithmetic of two integers, if the result is an integer of 64 bits. -/
def combineInts? (op : Arithmetic) (m n : Int64) : Option Int64 :=
  match op with
  | .add => Decimal.toInt64? (m.toInt + n.toInt)
  | .sub => Decimal.toInt64? (m.toInt - n.toInt)
  | .mul => Decimal.toInt64? (m.toInt * n.toInt)
  | .div => none

/-- Arithmetic of two numbers that are not both integers, or whose result is none. -/
def combineNumbers (op : Arithmetic) (v w : Value) : Except EngineError Value := do
  let x ← v.asFloat op.symbol
  let y ← w.asFloat op.symbol
  return number (op.apply x y)

/-- **Arithmetic of two values.** -/
def combine (op : Arithmetic) : Value → Value → Except EngineError Value
  | int m, int n =>
    match combineInts? op m n with
    | some k => .ok (int k)
    | none => combineNumbers op (int m) (int n)
  | series s, series t => ((s.combine t op).map series).mapError .frame
  | table f, table g => ((f.combine g op).map table).mapError .frame
  | table f, series s => ((f.withSeries s op false).map table).mapError .frame
  | series s, table f => ((f.withSeries s op true).map table).mapError .frame
  | series s, w => (w.asFloat op.symbol).map fun y => series (s.withScalar op y false)
  | v, series s => (v.asFloat op.symbol).map fun x => series (s.withScalar op x true)
  | table f, w => (w.asFloat op.symbol).map fun y => table (f.withScalar op y false)
  | v, table f => (v.asFloat op.symbol).map fun x => table (f.withScalar op x true)
  | v, w => combineNumbers op v w

end Value

end SeriesAlgebra
