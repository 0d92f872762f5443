import SeriesAlgebra.Order.SortedSet
import SeriesAlgebra.Window

/-!
# Time indexes

The index of a series or of a table is the strictly increasing list of its stamps.
`TimeIndex.ofSorted?` takes such a list and refuses any other, `TimeIndex.ofUnsorted`
makes one from any list, and `TimeIndex.unionAll` from the stamps of several indexes.

A window cuts a contiguous part out of an index. `TimeIndex.range` gives its
positions, and `slice` cuts any list along it, so that values are cut as their
stamps are.
-/

namespace SeriesAlgebra

/-- What can be wrong with an index or with an alignment of two. -/
inductive IndexError
  /-- The stamp at a position is not after the one before it. -/
  | unsorted (position : Nat)
  /-- The lists of an alignment differ in length. -/
  | unequalAlignment
  deriving DecidableEq, Repr

namespace IndexError

/-- The wording of an error. -/
def message : IndexError → String
  | unsorted position =>
    s!"index stamps must be strictly increasing (offending position {position})"
  | unequalAlignment => "alignment vectors must have equal lengths"

end IndexError

/-- A half-open range of positions. -/
structure PositionRange where
  start : Nat
  stop : Nat
  deriving DecidableEq, Repr

/-- The part of a list at the positions of a range. -/
def slice {α : Type} (r : PositionRange) (xs : List α) : List α := (xs.take r.stop).drop r.start

/-- The stamps of a series or of a table. -/
structure TimeIndex where
  stamps : List Stamp
  deriving DecidableEq, Repr

namespace TimeIndex

/-- The index without stamps. -/
def empty : TimeIndex := ⟨[]⟩

/-- The position of the first stamp that is not after the one before it. -/
def firstUnsorted? : List Stamp → Nat → Option Nat
  | a :: b :: rest, position =>
    if a < b then firstUnsorted? (b :: rest) (position + 1) else some (position + 1)
  | _, _ => none

/-- The index with the given stamps, which must be strictly increasing. -/
def ofSorted? (stamps : List Stamp) : Except IndexError TimeIndex :=
  match firstUnsorted? stamps 0 with
  | some position => .error (.unsorted position)
  | none => .ok ⟨stamps⟩

/-- The index of a list of stamps in any order, repeated or not. -/
def ofUnsorted (stamps : List Stamp) : TimeIndex := ⟨sortedSet stamps⟩

/-- The index with the stamps of all the given ones. -/
def unionAll (indexes : List TimeIndex) : TimeIndex := ofUnsorted (indexes.flatMap stamps)

/-- The number of stamps. -/
def size (i : TimeIndex) : Nat := i.stamps.length

/-- The position of a stamp. -/
def position? (i : TimeIndex) (t : Stamp) : Option Nat := i.stamps.idxOf? t

/-- The position in `source` of each stamp of `target`. -/
def positionsIn (source target : TimeIndex) : List (Option Nat) :=
  target.stamps.map source.position?

/-- The positions of the stamps in a window. -/
def range (i : TimeIndex) (w : Window) : PositionRange :=
  let start := match w.lower with
    | some lower => (i.stamps.takeWhile fun t => decide (t < lower)).length
    | none => 0
  let stop := match w.upper with
    | some upper => (i.stamps.takeWhile fun t => decide (t ≤ upper)).length
    | none => i.size
  ⟨start, max stop start⟩

/-- The part of an index at the positions of a range. -/
def slice (i : TimeIndex) (r : PositionRange) : TimeIndex := ⟨SeriesAlgebra.slice r i.stamps⟩

/-- The part of an index in a window. -/
def window (i : TimeIndex) (w : Window) : TimeIndex := i.slice (i.range w)

/-- Whether the stamps are strictly increasing. -/
def IsSorted (i : TimeIndex) : Prop := i.stamps.Pairwise (· < ·)

end TimeIndex

end SeriesAlgebra
