import SeriesAlgebra.Calendar.Zone
import SeriesAlgebra.Evaluation.Arithmetic
import SeriesAlgebra.Operator.Builtin
import SeriesAlgebra.Operator.Constant
import SeriesAlgebra.Operator.Options
import SeriesAlgebra.Series.Reduction

/-!
# Applying the built-in operators

What each operator does once its arguments are values (`Builtin.apply`), and what its
arguments are asked for when it is asked for something itself (`Builtin.childQuery`).
Two operators look at another window than the one they are asked for: `slice` at its
part inside the slice, and `naive` at a day more on either side, because it moves
stamps by up to that much.
-/

namespace SeriesAlgebra

/-- The error of an operator with a faulty argument. -/
def Builtin.refuse {α : Type} (b : Builtin) (fault : ArgumentFault) : Except EngineError α :=
  .error (.invalidArgument b.name fault)

namespace Application

/-- The first argument, as a series. -/
def firstSeries (args : Args) (operator : String) : Except EngineError Series := do
  (← args.get 0 operator).asSeries operator

/-- All arguments, as series. -/
def allSeries (args : Args) (operator : String) : Except EngineError (List Series) :=
  args.positional.mapM (·.asSeries operator)

/-- The value of a keyword converted, if the keyword is given. -/
def optional {α : Type} (keywords : OrderedMap String Value) (name : String)
    (f : Value → Except EngineError α) : Except EngineError (Option α) :=
  SeriesOptions.convert (keywords.find? name) f

/-- Arithmetic of the first two arguments. -/
def arithmetic (op : Arithmetic) (args : Args) : Except EngineError Value := do
  let right ← args.get 1 op.symbol
  let left ← args.get 0 op.symbol
  Value.combine op left right

/-- All arguments combined into one series. -/
def reduction (b : Builtin) (args : Args)
    (reduce : String → List Series → Except FrameError Series) : Except EngineError Value := do
  let inputs ← allSeries args b.name
  ((reduce b.name inputs).map Value.series).mapError .frame

/-- The power of ten that rounding to so many decimals works with; at most fifteen decimals count
on either side of the point. -/
def powerOfTen (decimals : Int) : Float :=
  let n := max (-15) (min 15 decimals)
  if 0 ≤ n then Float.ofNat (Nat.pow 10 n.toNat) else 1.0 / Float.ofNat (Nat.pow 10 (-n).toNat)

/-- The doubles from which on all are whole numbers. -/
def wholeFrom : Float := 4503599627370496.0

/-- The whole number nearest to a value, halves away from zero. What is no number stays, and the
sign of zero too. -/
def nearestWhole (x : Float) : Float :=
  if x.isNaN || wholeFrom ≤ x.abs then x
  else
    let whole := x.abs.toUInt64.toFloat
    let rounded := if 0.5 ≤ x.abs - whole then whole + 1.0 else whole
    if x.toBits.toNat / Nat.pow 2 63 = 1 then -rounded else rounded

/-- A value rounded at a power of ten, halves away from zero. -/
def roundAt (factor x : Float) : Float := nearestWhole (x * factor) / factor

/-- A value moved between two bounds. A missing value stays missing. -/
def clamp (lower upper : Option Float) (x : Float) : Float :=
  if x.isNaN then x
  else
    let x := lower.elim x (Reduction.greater x)
    upper.elim x (Reduction.smaller x)

/-- The window of a slice. -/
def sliceWindow (keywords : OrderedMap String Value) : Except EngineError Window := do
  let lower ← optional keywords "fromdate" (·.asStamp Builtin.slice.name)
  let upper ← optional keywords "todate" (·.asStamp Builtin.slice.name)
  return ⟨lower, upper⟩

/-- The zone of a name. -/
def zone (b : Builtin) (name : String) : Except EngineError Zone :=
  match Zone.find? name with
  | some z => .ok z
  | none => b.refuse (.unknownZone name)

/-- A series in universal time by the clocks of a zone, in a window. Where an hour repeats, the
later of two points with one clock time counts. -/
def toClocks (s : Series) (z : Zone) (window : Window) : Except FrameError Series :=
  let points := (s.points.map fun (t, x) => (z.toLocal t, x)).filter fun (t, _) => window.contains t
  Series.ofPoints? s.name (OrderedMap.ofList points).entries

/-- The stamp of a text, taken from the clocks of a zone if one is given. -/
def dateOf (text : String) (zoneName : Option String) : Except EngineError Stamp := do
  let clock ← (Stamp.parse text).mapError EngineError.stamp
  match zoneName with
  | none => return clock
  | some name =>
    match (← zone .date name).earliest? clock with
    | some t => return t
    | none => Builtin.date.refuse (.skippedTime text name)

/-- The sum of all arguments, as a table. -/
def groupSum (args : Args) : Except EngineError Frame :=
  match args.positional with
  | [] => Builtin.groupAdd.refuse .noOperand
  | first :: rest => do (← rest.foldlM (Value.combine .add) first).asTable Builtin.groupAdd.name

end Application

open Application in
/-- **What an operator makes of evaluated arguments.** The leaves `series` and `group` are never
applied: what they stand for is looked up. -/
def Builtin.apply (b : Builtin) (args : Args) (query : Query) : Except EngineError Value := do
  match b with
  | .series | .group => b.refuse .leaf
  | .options =>
    let s ← firstSeries args b.name
    return .series (s.withOptions (← s.options.update b.name args.keywords))
  | .plus => arithmetic .add args
  | .times => arithmetic .mul args
  | .divide => arithmetic .div args
  | .add => reduction b args Reduction.sum
  | .priority => reduction b args Reduction.priority
  | .min => reduction b args Reduction.least
  | .max => reduction b args Reduction.greatest
  | .rowMean => reduction b args Reduction.mean
  | .abs => return .series ((← firstSeries args b.name).mapValues Float.abs)
  | .round =>
    let decimals ← optional args.keywords "decimals" (·.asInt b.name)
    let factor := powerOfTen ((decimals.map Int64.toInt).getD 0)
    return .series ((← firstSeries args b.name).mapValues (roundAt factor))
  | .clip =>
    let lower ← optional args.keywords "min" (·.asFloat b.name)
    let upper ← optional args.keywords "max" (·.asFloat b.name)
    return .series ((← firstSeries args b.name).mapValues (clamp lower upper))
  | .slice =>
    let window ← sliceWindow args.keywords
    return .series ((← firstSeries args b.name).window window)
  | .cumsum => return .series (← firstSeries args b.name).cumulate
  | .naive =>
    let z ← zone b (← (← args.get 1 b.name).asString b.name)
    let s ← firstSeries args b.name
    ((toClocks s z query.window).map Value.series).mapError .frame
  | .date =>
    let zoneName ← optional args.keywords "tz" (·.asString b.name)
    return .timestamp (← dateOf (← (← args.get 0 b.name).asString b.name) zoneName)
  | .constant => return .series (← (← Constant.ofArgs args).read query)
  | .groupAdd => return .table (← groupSum args)

/-- **What the arguments of an operator are asked for.** -/
def Builtin.childQuery (b : Builtin) (keywords : OrderedMap String Value) (query : Query) :
    Except EngineError Query := do
  match b with
  | .slice =>
    return { query with window := query.window.intersect (← Application.sliceWindow keywords) }
  | .naive => return { query with window := query.window.widen (.days 1) }
  | _ => return query

end SeriesAlgebra
