import SeriesAlgebra.TimeIndex

/-!
# Aligning two indexes

To combine two series stamp by stamp, their indexes are merged in one pass. The
result is an **alignment**: the union of the two indexes and, for each stamp of it,
the position of the stamp in the left and in the right index. At every stamp at
least one of the two positions is there.

The merge goes down the left index, and between two stamps of it takes the right ones
that come before (`Alignment.mergeInto`).
-/

namespace SeriesAlgebra

/-- The stamps of two indexes with the position of each in either. -/
structure Alignment where
  union : TimeIndex
  left : List (Option Nat)
  right : List (Option Nat)
  deriving DecidableEq, Repr

namespace Alignment

/-- One stamp of an alignment with its positions. -/
structure Row where
  stamp : Stamp
  left : Option Nat
  right : Option Nat
  deriving DecidableEq, Repr

/-- The alignment with the given rows. -/
def ofRows (rows : List Row) : Alignment where
  union := ⟨rows.map Row.stamp⟩
  left := rows.map Row.left
  right := rows.map Row.right

/-- The rows of the stamps of one side only, the first of which has a position. -/
def rightRows (j : Nat) : List Stamp → List Row
  | [] => []
  | b :: bs => ⟨b, none, some j⟩ :: rightRows (j + 1) bs

/-- The rows up to and including that of the left stamp `a` at position `i`, and then those that
`following` makes of what is left of the right stamps, the first of which has position `j`. -/
def mergeInto (a : Stamp) (i : Nat) (following : Nat → List Stamp → List Row) (j : Nat) :
    List Stamp → List Row
  | [] => ⟨a, some i, none⟩ :: following j []
  | b :: bs =>
    if a = b then ⟨a, some i, some j⟩ :: following (j + 1) bs
    else if a < b then ⟨a, some i, none⟩ :: following j (b :: bs)
    else ⟨b, none, some j⟩ :: mergeInto a i following (j + 1) bs

/-- The rows of two merged lists of stamps, the first of which have positions `i` and `j`. -/
def mergeRows (i : Nat) : List Stamp → Nat → List Stamp → List Row
  | [], j, bs => rightRows j bs
  | a :: as, j, bs => mergeInto a i (mergeRows (i + 1) as) j bs

/-- **The alignment of two indexes.** -/
def merge (left right : TimeIndex) : Alignment := ofRows (mergeRows 0 left.stamps 0 right.stamps)

/-- An alignment has as many positions on either side as it has stamps. -/
def validate (a : Alignment) : Except IndexError Unit :=
  if a.left.length ≠ a.right.length ∨ a.left.length ≠ a.union.size then .error .unequalAlignment
  else .ok ()

/-! ### Laws -/

/-- What is made of rows is always valid. -/
theorem validate_ofRows (rows : List Row) : (ofRows rows).validate = .ok () := by
  simp [validate, ofRows, TimeIndex.size]

/-- Merging always gives a valid alignment. -/
theorem validate_merge (left right : TimeIndex) : (merge left right).validate = .ok () :=
  validate_ofRows _

end Alignment

end SeriesAlgebra
