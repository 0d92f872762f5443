import SeriesAlgebra.Json.Writing
import SeriesAlgebra.Text.Quoted

/-!
# Errors of bindings
-/

namespace SeriesAlgebra

/-- One row of a binding: wherever the formula reads `series`, the group `group` is read instead,
as one axis of the family `family` of scenarios. -/
structure BindingRow where
  series : String
  group : String
  family : String
  deriving DecidableEq, Repr

namespace BindingRow

/-- A row in words. -/
def text (r : BindingRow) : String :=
  "BindingRow \x7b series: " ++ Text.quoted r.series ++ ", group: " ++ Text.quoted r.group ++
    ", family: " ++ Text.quoted r.family ++ " \x7d"

end BindingRow

/-- What can be wrong with a binding. -/
inductive BindingFault
  | noRows (formula : String)
  | emptyField (formula : String) (row : BindingRow)
  | repeatedSeries (name : String)
  | notARecord (row : Json)
  | wrongColumns (columns : List String)
  | notAString (column : String)

namespace BindingFault

/-- The wording of a fault. -/
def message : BindingFault → String
  | noRows formula => s!"binding of `{formula}` has no rows"
  | emptyField formula row => s!"binding of `{formula}` has an empty field in {row.text}"
  | repeatedSeries name => s!"series `{name}` is bound more than once"
  | notARecord row => s!"row {row.text} is not a record"
  | wrongColumns columns =>
    "expected columns family, group, series; got " ++ ", ".intercalate columns
  | notAString column => s!"column `{column}` must hold strings"

end BindingFault

end SeriesAlgebra
