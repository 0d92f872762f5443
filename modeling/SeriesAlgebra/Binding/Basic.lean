import SeriesAlgebra.Engine.Error
import SeriesAlgebra.Order.Map
import SeriesAlgebra.Order.SortedSet

/-!
# Bindings

A binding turns a formula into a group: some of the series the formula refers to are
read from groups instead, once for every combination of their scenarios. The rows of
a binding say which series is read from which group, and to which **family** of
scenarios the group belongs; groups of one family take the same scenario at a time.

`combinations` lists the choices of one scenario for each family, in the order of the
families and then of their scenarios.
-/

namespace SeriesAlgebra

/-- The rows of a formula. -/
structure Binding where
  formula : String
  rows : List BindingRow
  deriving DecidableEq, Repr

namespace Binding

/-- The first fault of rows that come after rows for the series in `seen`: an empty field, or a
series that has a row already. -/
def rowFault? (formula : String) (seen : List String) : List BindingRow → Option BindingFault
  | [] => none
  | row :: rest =>
    if row.series.isEmpty || row.group.isEmpty || row.family.isEmpty then
      some (.emptyField formula row)
    else if seen.contains row.series then some (.repeatedSeries row.series)
    else rowFault? formula (row.series :: seen) rest

/-- **The binding with given rows**: there is a row, no field is empty, and every series has one
row. -/
def ofRows? (formula : String) (rows : List BindingRow) : Except BindingFault Binding :=
  if rows.isEmpty then .error (.noRows formula)
  else match rowFault? formula [] rows with
    | some fault => .error fault
    | none => .ok ⟨formula, rows⟩

/-- The columns of a record. -/
def columns : List String := ["family", "group", "series"]

/-- A column of a record, which must hold a string. -/
def column (record : Json) (name : String) : Except BindingFault String :=
  match (record.field? name).bind Json.str? with
  | some text => .ok text
  | none => .error (.notAString name)

/-- The row of a record, which has exactly the three columns. -/
def rowOfRecord (record : Json) : Except BindingFault BindingRow :=
  match record.members? with
  | none => .error (.notARecord record)
  | some members => do
    let names := sortedSet (members.map (·.1))
    if names ≠ columns then throw (.wrongColumns names)
    let series ← column record "series"
    let group ← column record "group"
    let family ← column record "family"
    return ⟨series, group, family⟩

/-- The binding of a list of records. -/
def ofRecords? (formula : String) (records : List Json) : Except BindingFault Binding := do
  ofRows? formula (← records.mapM rowOfRecord)

/-- The series that are bound, in order. -/
def seriesNames (b : Binding) : List String := sortedSet (b.rows.map (·.series))

end Binding

/-- A choice of one scenario for each family. -/
structure Combination where
  picks : List (String × String)
  deriving DecidableEq, Repr

namespace Combination

/-- The scenario chosen for a family. -/
def scenario? (c : Combination) (family : String) : Option String := c.picks.lookup family

/-- The scenarios with hyphens between them. -/
def label (c : Combination) : String := "-".intercalate (c.picks.map (·.2))

end Combination

/-- The choices of a scenario for each family in a list. -/
def picksOf : List (String × List String) → List (List (String × String))
  | [] => [[]]
  | (family, scenarios) :: rest =>
    scenarios.flatMap fun scenario => (picksOf rest).map ((family, scenario) :: ·)

/-- **All combinations of scenarios**, the scenarios of the last family changing first. -/
def combinations (families : OrderedMap String (List String)) : List Combination :=
  (picksOf families.entries).map Combination.mk

end SeriesAlgebra
