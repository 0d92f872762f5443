import SeriesAlgebra.Decimal.Layout
import SeriesAlgebra.Series.Basic
import SeriesAlgebra.Text.Quoted

/-!
# Tables

A table holds several columns over one index, each with a name of its own and a
value for every stamp. Read by columns a table is a list of series
(`Frame.seriesList`), read by rows it is a list of lists of values (`Frame.rows`).

Arithmetic between a table and a series, or between two tables with the same column
names, is arithmetic of series in each column, so that the result is indexed by the
union of both indexes.
-/

namespace SeriesAlgebra

namespace FrameError

/-- The wording of an error. -/
def message : FrameError → String
  | lengthMismatch stamps values =>
    s!"index length ({stamps}) does not match value length ({values})"
  | duplicateColumn name => s!"duplicate column `{name}`"
  | columnMismatch left right =>
    "tables have mismatched columns: " ++ Text.quotedList left ++ " vs " ++ Text.quotedList right
  | invalidFill text => s!"invalid fill policy `{text}`"
  | emptyInput operation => s!"`{operation}` needs at least one input"
  | index e => e.message

end FrameError

/-- Named columns of values over one index. -/
structure Frame where
  index : TimeIndex
  columns : List (String × List Float)

namespace Frame

/-! ### Making and reading -/

/-- The table without columns and stamps. -/
def empty : Frame := ⟨.empty, []⟩

/-- What is wrong with columns over an index of a given size, the first fault from the left: a
column of another length, or the name of an earlier column. -/
def columnFault? (size : Nat) (earlier : List String) :
    List (String × List Float) → Option FrameError
  | [] => none
  | (name, values) :: rest =>
    if values.length ≠ size then some (.lengthMismatch size values.length)
    else if name ∈ earlier then some (.duplicateColumn name)
    else columnFault? size (name :: earlier) rest

/-- The table of an index and columns over it. -/
def ofColumns? (index : TimeIndex) (columns : List (String × List Float)) :
    Except FrameError Frame :=
  match columnFault? index.size [] columns with
  | some fault => .error fault
  | none => .ok ⟨index, columns⟩

/-- **A table of several series**: a column for each, over the union of their indexes. -/
def ofSeries? (list : List Series) : Except FrameError Frame :=
  let union := TimeIndex.unionAll (list.map Series.index)
  ofColumns? union (list.map fun s => (s.name, (s.reindex union).values))

/-- The names of the columns. -/
def columnNames (f : Frame) : List String := f.columns.map (·.1)

/-- A column as a series. -/
def columnSeries (f : Frame) (column : String × List Float) : Series :=
  .ofPoints column.1 (f.index.stamps.zip column.2)

/-- The columns as series. -/
def seriesList (f : Frame) : List Series := f.columns.map f.columnSeries

/-- The column of a name, as a series. -/
def column? (f : Frame) (name : String) : Option Series :=
  (f.columns.find? (·.1 = name)).map f.columnSeries

/-- The first values of columns, in the order of the columns. -/
def heads (columns : List (List Float)) : List Float := columns.map (·.headD missing)

/-- The values of columns row by row, for a given number of rows. -/
def rowsOf : Nat → List (List Float) → List (List Float)
  | 0, _ => []
  | count + 1, columns => heads columns :: rowsOf count (columns.map List.tail)

/-- The values of each row, in the order of the columns. -/
def rows (f : Frame) : List (List Float) := rowsOf f.index.size (f.columns.map (·.2))

/-- The stamps and values of each row. -/
def stampedRows (f : Frame) : List (Stamp × List Float) := f.index.stamps.zip f.rows

/-- The table whose columns are renewed, over another index. -/
def mapColumns (f : Frame) (index : TimeIndex) (g : List Float → List Float) : Frame :=
  ⟨index, f.columns.map fun (name, values) => (name, g values)⟩

/-! ### Operations on one table -/

/-- The rows in a window. -/
def window (f : Frame) (w : Window) : Frame :=
  let range := f.index.range w
  f.mapColumns (f.index.slice range) (slice range)

/-- Whether a row has all its values. -/
def isComplete (row : List Float) : Bool := row.all (!·.isNaN)

/-- The elements of a list at the rows that have all their values. -/
def keepComplete {α : Type} (rows : List (List Float)) (xs : List α) : List α :=
  ((rows.zip xs).filter fun (row, _) => isComplete row).map (·.2)

/-- The rows without a missing value. -/
def dropIncomplete (f : Frame) : Frame :=
  f.mapColumns ⟨keepComplete f.rows f.index.stamps⟩ (keepComplete f.rows)

/-- The series of the values that each row is reduced to. -/
def reduceRows (f : Frame) (name : String) (reduce : List Float → Float) : Series :=
  .ofPoints name (f.stampedRows.map fun (t, row) => (t, reduce row))

/-- Arithmetic with a scalar, in every column. -/
def withScalar (f : Frame) (op : Arithmetic) (scalar : Float) (scalarFirst : Bool) : Frame :=
  f.mapColumns f.index (·.map (op.withScalar scalar scalarFirst))

/-! ### Operations with a series or another table -/

/-- Arithmetic between every column and a series, in the order asked for. A table without columns
stays as it is. -/
def withSeries (f : Frame) (s : Series) (op : Arithmetic) (seriesFirst : Bool) :
    Except FrameError Frame := do
  let columns ← f.seriesList.mapM fun column =>
    (if seriesFirst then s.combine column op else column.combine s op).map (·.withName column.name)
  if columns.isEmpty then return f else ofSeries? columns

/-- The names of the columns in order. -/
def sortedNames (f : Frame) : List String := sortedSet f.columnNames

/-- Arithmetic between two tables with the same column names, column by column. -/
def combine (f g : Frame) (op : Arithmetic) : Except FrameError Frame := do
  let mismatch := FrameError.columnMismatch f.sortedNames g.sortedNames
  if f.sortedNames ≠ g.sortedNames then throw mismatch
  let columns ← f.seriesList.mapM fun column =>
    match g.column? column.name with
    | some peer => (column.combine peer op).map (·.withName column.name)
    | none => throw mismatch
  ofSeries? columns

/-! ### Text -/

/-- A table as lines of cells separated by tabs: the names first, then a line for each stamp. -/
def text (f : Frame) : String :=
  let line (cells : List String) : String := "\t".intercalate cells ++ "\n"
  let header := line ("stamp" :: f.columnNames)
  f.stampedRows.foldl (fun lines (t, row) =>
    lines ++ line (t.text :: row.map NumberLayout.plain.write)) header

end Frame

end SeriesAlgebra
