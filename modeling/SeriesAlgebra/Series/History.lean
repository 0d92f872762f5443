import SeriesAlgebra.Order.Map
import SeriesAlgebra.Series.Basic

/-!
# Histories

A series changes by insertions: at an insertion date a new version takes effect. A
**history** holds the versions by insertion date. Two readings of it matter:

* at a given date, the version in effect is the latest one inserted at or before it
  (`History.asOf?`);
* the **staircase** for a delay takes each value date from the version that was in
  effect that much earlier (`History.staircase`).

`Series.diff` says what one version changes about another, missing values standing
for points that are erased.
-/

namespace SeriesAlgebra

/-- The versions of a series by insertion date. -/
abbrev History := OrderedMap InsertionDate Series

namespace Series

/-- Whether a point changes what another series says at its stamp: a new value where there was
none, an erasure where there was one, or another value. -/
def changes (base : Series) (point : Stamp × Float) : Bool :=
  match base.at? point.1 with
  | none => !point.2.isNaN
  | some old => if old.isNaN then !point.2.isNaN else point.2.isNaN || old != point.2

/-- The points of a version that are new or different from a base; all of them, and the options
too, if there is no base. -/
def diff (base : Option Series) (next : Series) : Series :=
  match base with
  | none => next
  | some base => .ofPoints next.name (next.points.filter base.changes)

end Series

namespace History

/-- The entry of the version in effect at a date. -/
def entryAsOf? {α : Type} (h : OrderedMap InsertionDate α) (date : InsertionDate) :
    Option (InsertionDate × α) :=
  (h.entries.filter fun (inserted, _) => decide (inserted ≤ date)).getLast?

/-- **The version in effect at a date**: the latest one inserted at or before it. -/
def asOf? {α : Type} (h : OrderedMap InsertionDate α) (date : InsertionDate) : Option α :=
  (entryAsOf? h date).map (·.2)

/-- The version in effect at a date, or the latest one for no date. -/
def version? {α : Type} (h : OrderedMap InsertionDate α) : Option InsertionDate → Option α
  | some date => asOf? h date
  | none => h.last?.map (·.2)

/-- Each version as a difference to the one before it. -/
def diffEntries (before : Option Series) :
    List (InsertionDate × Series) → List (InsertionDate × Series)
  | [] => []
  | (date, version) :: rest => (date, .diff before version) :: diffEntries (some version) rest

/-- Every version as a difference to the one before it, and the first to `before`. -/
def diffs (h : History) (before : Option Series) : History := ⟨diffEntries before h.entries⟩

/-- The points of a version that count in a staircase: from the insertion date plus the delay, up
to the next insertion date plus the delay. -/
def step (delay : Span) (window : Window) (inserted : InsertionDate)
    (next : Option InsertionDate) (version : Series) : List (Stamp × Float) :=
  version.points.filter fun (t, x) =>
    decide (inserted.shift delay ≤ t) && next.all (fun next => decide (t < next.shift delay)) &&
      !x.isNaN && window.contains t

/-- The points of all steps, version after version. -/
def steps (delay : Span) (window : Window) :
    List (InsertionDate × Series) → List (Stamp × Float)
  | [] => []
  | (inserted, version) :: rest =>
    step delay window inserted (rest.head?.map (·.1)) version ++ steps delay window rest

/-- **The staircase of a history**: at each value date in a window the value of the version that
was in effect a delay before it. -/
def staircase (h : History) (name : String) (delay : Span) (window : Window) :
    Except FrameError Series :=
  Series.ofPoints? name (OrderedMap.ofList (steps delay window h.entries)).entries

end History

end SeriesAlgebra
