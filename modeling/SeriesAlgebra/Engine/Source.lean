import SeriesAlgebra.Evaluation.Query
import SeriesAlgebra.Metadata
import SeriesAlgebra.Series.History

/-!
# Sources

An engine may read series that it does not know itself from other places. Such a
**source** is known by what it answers: whether it has a series, its versions, and
what formula and metadata are behind it. Sources are asked in turn, and the first that
has a series answers for it.
-/

namespace SeriesAlgebra

/-- A part of a formula: a series it reads, or a formula with parts of its own. -/
inductive Component
  | series (name : String)
  | formula (name : String) (parts : List Component)

/-- A place that series can be read from. -/
structure Source where
  name : String
  contains : String → Bool
  read? : String → Query → Except EngineError (Option Series)
  history? : String → HistoryQuery → Except EngineError (Option History)
  insertionDates : String → Window → Except EngineError (List InsertionDate)
  /-- The text of a formula, expanded or not. -/
  formula? : String → Bool → Except EngineError (Option String)
  /-- The parts of a formula, broken down or not. -/
  components? : String → Bool → Except EngineError (Option Component)
  metadata? : String → Except EngineError (Option Metadata)

/-- The first source that has a series. -/
def findSource? (sources : List Source) (name : String) : Option Source :=
  sources.find? (·.contains name)

end SeriesAlgebra
