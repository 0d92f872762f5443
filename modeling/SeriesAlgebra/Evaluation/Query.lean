import SeriesAlgebra.Window

/-!
# Queries

A read asks for one version of a series – the one in effect at a revision date, or
the latest – cut to a window of value dates. A read of a history asks for all the
versions inserted in a window of insertion dates.
-/

namespace SeriesAlgebra

/-- What a read of one version asks for. -/
structure Query where
  /-- The date at which the version is in effect; the latest version if absent. -/
  revision : Option InsertionDate
  window : Window
  deriving DecidableEq, Repr

namespace Query

/-- The latest version in a window. -/
def latestIn (window : Window) : Query := ⟨none, window⟩

/-- The latest version over all value dates. -/
def latest : Query := latestIn .unbounded

end Query

/-- What a read of a history asks for. -/
structure HistoryQuery where
  inserted : Window
  window : Window
  /-- Whether each version is wanted as a difference to the one before it. -/
  asDiff : Bool
  deriving DecidableEq, Repr

namespace HistoryQuery

/-- All versions, in a window of value dates. -/
def allIn (window : Window) : HistoryQuery := ⟨.unbounded, window, false⟩

/-- The same versions in full and over all value dates. -/
def absolute (q : HistoryQuery) : HistoryQuery := { q with window := .unbounded, asDiff := false }

/-- The read of one version that agrees with this one at an insertion date. -/
def asOf (q : HistoryQuery) (date : InsertionDate) : Query := ⟨some date, q.window⟩

end HistoryQuery

end SeriesAlgebra
