import SeriesAlgebra.Evaluation.Query
import SeriesAlgebra.Evaluation.Value
import SeriesAlgebra.Operator.Frequency
import SeriesAlgebra.Series.History

/-!
# Constant series

A call of `constant` gives one value at every step of a grid, from a first stamp to a
last one. It has one version, in effect from its revision date on.

Only the steps inside the window asked for are made, and at most
`ArgumentFault.pointLimit` of them. Distances are counted in microseconds of 64 bits,
and where one does not fit the call is refused as one with too many points.
-/

namespace SeriesAlgebra

/-- A constant series: its value, its first and last stamp, its step and its revision date. -/
structure Constant where
  value : Float
  first : Stamp
  last : Stamp
  step : Span
  revised : InsertionDate

namespace Constant

/-- The symbol of the operator. -/
def operator : String := "constant"

/-- The error of a call with a faulty argument. -/
def refuse {α : Type} (fault : ArgumentFault) : Except EngineError α :=
  .error (.invalidArgument operator fault)

/-- The step of a call. -/
def stepOf (text : String) : Except EngineError Span :=
  match Frequency.parse? text with
  | some step => .ok step
  | none => refuse (.invalidFrequency text)

/-- The constant series that evaluated arguments describe. -/
def ofArgs (args : Args) : Except EngineError Constant := do
  let value ← (← args.get 0 operator).asFloat operator
  let first ← (← args.get 1 operator).asStamp operator
  let last ← (← args.get 2 operator).asStamp operator
  let step ← stepOf (← (← args.get 3 operator).asString operator)
  let revised ← (← args.get 4 operator).asStamp operator
  return ⟨value, first, last, step, revised⟩

/-- A distance with what division by the step must find in addition to round it up. -/
def raised (c : Constant) (distance : Int) : Int := distance + c.step.micros - 1

/-- The number of whole steps from the first stamp after which a distance is reached. -/
def stepsToReach (c : Constant) (distance : Int) : Int := c.raised distance / c.step.micros

/-- A number of microseconds, if it fits into 64 bits. -/
def micros? (n : Int) : Option Int := if Decimal.fitsInt64 n then some n else none

/-- The stamp a number of steps after the first, if it can be written. -/
def stampAt? (c : Constant) (steps : Int) : Option Stamp := do
  let distance ← micros? (steps * c.step.micros)
  let stamp := c.first.shift ⟨distance⟩
  if stamp.inRange then some stamp else none

/-- The stamps of the grid between two bounds, or `none` if there are too many. -/
def grid? (c : Constant) (lower upper : Stamp) : Option (List Stamp) := do
  let _ ← micros? c.step.micros
  let skipped ← micros? (Stamp.microsBetween c.first lower)
  let firstStep := c.stepsToReach skipped
  let start ← c.stampAt? firstStep
  if upper < start then some []
  else
    let span ← micros? (Stamp.microsBetween start upper)
    let count := span / c.step.micros + 1
    if (ArgumentFault.pointLimit : Int) < count then none
    else (List.range count.toNat).mapM fun (k : Nat) => c.stampAt? (firstStep + k)

/-- **The points of a constant series in a window.** -/
def series (c : Constant) (window : Window) : Except EngineError Series :=
  let bounds := window.intersect ⟨some c.first, some c.last⟩
  match bounds.lower, bounds.upper with
  | some lower, some upper =>
    if upper < lower then .ok (Series.empty operator)
    else
      match c.grid? lower upper with
      | none => refuse (.tooManyPoints lower upper)
      | some stamps =>
        (Series.ofPoints? operator (stamps.map fun t => (t, c.value))).mapError .frame
  | _, _ => .ok (Series.empty operator)

/-- What a read sees of a constant series: nothing before its revision date. -/
def read (c : Constant) (query : Query) : Except EngineError Series :=
  if query.revision.any fun date => decide (date < c.revised) then .ok (Series.empty operator)
  else c.series query.window

/-- The version of a constant series, if its revision date is asked for. -/
def history (c : Constant) (query : HistoryQuery) : Except EngineError History :=
  if query.inserted.contains c.revised then
    (c.series query.window).map fun s => OrderedMap.empty.insert c.revised s
  else .ok .empty

/-- The revision date of a constant series, if it is asked for. -/
def insertionDates (c : Constant) (inserted : Window) : List InsertionDate :=
  if inserted.contains c.revised then [c.revised] else []

end Constant

end SeriesAlgebra
