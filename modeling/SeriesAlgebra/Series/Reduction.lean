import SeriesAlgebra.Frame.Basic

/-!
# Combining series row by row

Several series are laid side by side over the union of their indexes
(`Reduction.aligned`), and each row is reduced to one value: the sum, the first
value present, the least, the greatest, or the weighted mean. Inputs never need to
share stamps, and the same series may come twice.

A series that carries a fill policy is filled on the union before rows are reduced;
`Reduction.priority` does not fill but leaves out the last points of a series that
asks for it.
-/

namespace SeriesAlgebra

namespace Reduction

/-- The inputs as columns over the union of their indexes, named by their positions. -/
def aligned (inputs : List Series) (fills : Bool) : Except FrameError Frame :=
  let union := TimeIndex.unionAll (inputs.map Series.index)
  Frame.ofSeries? <| inputs.zipIdx.map fun (s, position) =>
    let column := s.reindex union
    let filled := match fills, s.options.fill with
      | true, some policy => column.fill policy
      | _, _ => column
    filled.withName (toString position)

/-- A combination of at least one series. -/
def ofInputs (operation : String) (inputs : List Series)
    (combine : Unit → Except FrameError Series) : Except FrameError Series :=
  if inputs.isEmpty then .error (.emptyInput operation) else combine ()

/-- The values of a row that are not missing. -/
def present (row : List Float) : List Float := row.filter (!·.isNaN)

/-- The sum of a row. -/
def rowSum (row : List Float) : Float := row.foldl (· + ·) (-0.0)

/-- **Sum**: at the stamps where every input has a value once it is filled. -/
def sum (name : String) (inputs : List Series) : Except FrameError Series :=
  ofInputs "add" inputs fun _ => do
    return (← aligned inputs true).dropIncomplete.reduceRows name rowSum

/-- An input of `priority` without the points that are left out. -/
def pruned (s : Series) : Series :=
  (match s.options.prune with
    | some count => s.pruneLast count
    | none => s).dropMissing

/-- The first value of a row that is not missing. -/
def firstPresent (row : List Float) : Float := (row.find? (!·.isNaN)).getD missing

/-- **Priority**: at each stamp the value of the first input that has one. -/
def priority (name : String) (inputs : List Series) : Except FrameError Series :=
  ofInputs "priority" inputs fun _ => do
    return ((← aligned (inputs.map pruned) false).reduceRows name firstPresent).dropMissing

/-- The smaller of two values, the second of two equal ones, and the other one if one is missing. -/
def smaller (x y : Float) : Float := if y.isNaN || x < y then x else y

/-- The greater of two values, the second of two equal ones, and the other one if one is missing. -/
def greater (x y : Float) : Float := if y.isNaN || y < x then x else y

/-- **Least value** among the inputs present at a stamp. -/
def least (name : String) (inputs : List Series) : Except FrameError Series :=
  ofInputs "min" inputs fun _ => do
    return ((← aligned inputs true).reduceRows name
      fun row => (present row).foldl smaller missing).dropMissing

/-- **Greatest value** among the inputs present at a stamp. -/
def greatest (name : String) (inputs : List Series) : Except FrameError Series :=
  ofInputs "max" inputs fun _ => do
    return ((← aligned inputs true).reduceRows name
      fun row => (present row).foldl greater missing).dropMissing

/-- How much an input counts in a mean. -/
def weightOf (s : Series) : Float := s.options.weight.getD 1.0

/-- The mean of the values present in a row, each with its weight; missing if the weights sum to
zero. -/
def rowMean (weights row : List Float) : Float :=
  let (sum, total) := ((row.zip weights).filter fun (x, _) => !x.isNaN).foldl
    (fun (sum, total) (x, weight) => (sum + x * weight, total + weight)) (0.0, 0.0)
  if total == 0.0 then missing else sum / total

/-- **Weighted mean** of the inputs present at a stamp. -/
def mean (name : String) (inputs : List Series) : Except FrameError Series :=
  ofInputs "row-mean" inputs fun _ => do
    return ((← aligned inputs true).reduceRows name
      (rowMean (inputs.map weightOf))).dropMissing

end Reduction

end SeriesAlgebra
