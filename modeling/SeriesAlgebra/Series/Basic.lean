import SeriesAlgebra.Series.Fill
import SeriesAlgebra.TimeIndex.Alignment

/-!
# Series

A series has a name and points, each with a stamp and a value, in strictly
increasing order of the stamps; a missing value is a NaN. A series also carries
options, which say how an operator that combines several series should treat this
one.

What a series says at a stamp is `Series.at?`: nothing where it has no point. The
operations here work on one series (cutting, filling, dropping, mapping, running
sums) or on two (`Series.combine`), which meet on the union of their indexes.
-/

namespace SeriesAlgebra

/-- What can be wrong with series and tables. -/
inductive FrameError
  /-- An index and its values differ in length. -/
  | lengthMismatch (stamps values : Nat)
  /-- A table has two columns of one name. -/
  | duplicateColumn (name : String)
  /-- Two tables to combine have different columns. -/
  | columnMismatch (left right : List String)
  /-- A text is no fill policy. -/
  | invalidFill (text : String)
  /-- A combination of no series. -/
  | emptyInput (operation : String)
  /-- The index itself is wrong. -/
  | index (e : IndexError)
  deriving DecidableEq, Repr

/-- An operation of arithmetic. -/
inductive Arithmetic
  | add
  | sub
  | mul
  | div
  deriving DecidableEq, Repr

namespace Arithmetic

/-- The operation on two numbers. -/
def apply : Arithmetic → Float → Float → Float
  | add, x, y => x + y
  | sub, x, y => x - y
  | mul, x, y => x * y
  | div, x, y => x / y

/-- How the operation is written. -/
def symbol : Arithmetic → String
  | add => "+"
  | sub => "-"
  | mul => "*"
  | div => "/"

/-- The operation between a value and a scalar, in the order asked for. -/
def withScalar (op : Arithmetic) (scalar : Float) (scalarFirst : Bool) (x : Float) : Float :=
  if scalarFirst then op.apply scalar x else op.apply x scalar

end Arithmetic

/-- How a series is treated where it is combined with others. -/
structure SeriesOptions where
  /-- How its missing points are filled. -/
  fill : Option FillPolicy
  /-- How many of its last points are left out. -/
  prune : Option Nat
  /-- How much it counts in a mean. -/
  weight : Option Float

namespace SeriesOptions

/-- No option at all. -/
def unset : SeriesOptions := ⟨none, none, none⟩

/-- Whether no option is set. -/
def isUnset (o : SeriesOptions) : Bool := o.fill.isNone && o.prune.isNone && o.weight.isNone

end SeriesOptions

/-- A named list of points, and the options it carries. -/
structure Series where
  name : String
  points : List (Stamp × Float)
  options : SeriesOptions

namespace Series

/-! ### Making and reading -/

/-- The stamps of a series. -/
def index (s : Series) : TimeIndex := ⟨s.points.map (·.1)⟩

/-- The values of a series. -/
def values (s : Series) : List Float := s.points.map (·.2)

/-- The series without points. -/
def empty (name : String) : Series := ⟨name, [], .unset⟩

/-- The series without options that has given points. -/
def ofPoints (name : String) (points : List (Stamp × Float)) : Series := ⟨name, points, .unset⟩

/-- The series of an index and as many values. -/
def ofIndex? (name : String) (index : TimeIndex) (values : List Float) :
    Except FrameError Series :=
  if index.size = values.length then .ok (ofPoints name (index.stamps.zip values))
  else .error (.lengthMismatch index.size values.length)

/-- The series of a list of points, whose stamps must be strictly increasing. -/
def ofPoints? (name : String) (points : List (Stamp × Float)) : Except FrameError Series :=
  match TimeIndex.ofSorted? (points.map (·.1)) with
  | .ok _ => .ok (ofPoints name points)
  | .error e => .error (.index e)

/-- The same points under another name. -/
def withName (s : Series) (name : String) : Series := { s with name := name }

/-- The same points with other options. -/
def withOptions (s : Series) (options : SeriesOptions) : Series := { s with options := options }

/-- The same series with other points. -/
def withPoints (s : Series) (points : List (Stamp × Float)) : Series := { s with points := points }

/-- Whether there is no point. -/
def isEmpty (s : Series) : Bool := s.points.isEmpty

/-- The value at a stamp, if there is a point. -/
def at? (s : Series) (t : Stamp) : Option Float := s.points.lookup t

/-- Whether the stamps are strictly increasing. -/
def IsSorted (s : Series) : Prop := s.index.IsSorted

/-- Whether two values are equal, all missing ones being equal to each other. -/
def sameValue (x y : Float) : Bool := (x.isNaN && y.isNaN) || x == y

/-- Whether two series have the same points. Names and options do not count. -/
def samePoints (s t : Series) : Bool :=
  s.index == t.index && (s.values.zip t.values).all fun (x, y) => sameValue x y

/-! ### Operations on one series -/

/-- The points in a window. -/
def window (s : Series) (w : Window) : Series :=
  if w.isUnbounded then s else s.withPoints (slice (s.index.range w) s.points)

/-- The values at the stamps of another index, missing where there is no point. -/
def reindex (s : Series) (target : TimeIndex) : Series :=
  s.withPoints (target.stamps.map fun t => (t, (s.at? t).getD missing))

/-- The same stamps with other values, one for each. -/
def withValues (s : Series) (values : List Float) : Series :=
  s.withPoints ((s.points.map (·.1)).zip values)

/-- Missing points filled. -/
def fill (s : Series) (policy : FillPolicy) : Series := s.withValues (policy.apply s.values)

/-- The points that have a value. -/
def dropMissing (s : Series) : Series := s.withPoints (s.points.filter fun (_, x) => !x.isNaN)

/-- All points but the last `count`. -/
def pruneLast (s : Series) (count : Nat) : Series :=
  s.withPoints (s.points.take (s.points.length - count))

/-- Every value replaced by its image. -/
def mapValues (s : Series) (f : Float → Float) : Series :=
  s.withPoints (s.points.map fun (t, x) => (t, f x))

/-- Arithmetic with a scalar. -/
def withScalar (s : Series) (op : Arithmetic) (scalar : Float) (scalarFirst : Bool) : Series :=
  s.mapValues (op.withScalar scalar scalarFirst)

/-- The sums of all values so far. A missing value stays missing and adds nothing. -/
def runningSums (total : Float) : List (Stamp × Float) → List (Stamp × Float)
  | [] => []
  | (t, x) :: rest =>
    if x.isNaN then (t, missing) :: runningSums total rest
    else (t, total + x) :: runningSums (total + x) rest

/-- The running sum. -/
def cumulate (s : Series) : Series := s.withPoints (runningSums 0.0 s.points)

/-! ### Operations on two series -/

/-- The value at a position of a list of points, if the position is there. -/
def valueAt (s : Series) (position : Option Nat) : Option Float :=
  position.bind fun p => s.points[p]?.map (·.2)

/-- The name of a combination: both names with the operation between them, or the one name that
both have. -/
def combinedName (op : Arithmetic) (left right : String) : String :=
  if left = right then left else left ++ op.symbol ++ right

/-- **Arithmetic between two series**: on the union of their indexes, missing where one of them
has no point. -/
def combine (s t : Series) (op : Arithmetic) : Except FrameError Series := do
  let plan := Alignment.merge s.index t.index
  plan.validate.mapError FrameError.index
  let values := (plan.left.zip plan.right).map fun (left, right) =>
    match s.valueAt left, t.valueAt right with
    | some x, some y => op.apply x y
    | _, _ => missing
  ofIndex? (combinedName op s.name t.name) plan.union values

end Series

/-- The fill policy of a text. -/
def FillPolicy.parse (text : String) : Except FrameError FillPolicy :=
  match FillPolicy.parse? text with
  | some policy => .ok policy
  | none => .error (.invalidFill text)

end SeriesAlgebra
