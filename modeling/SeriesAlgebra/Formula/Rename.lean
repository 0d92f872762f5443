import SeriesAlgebra.Formula.Tree

/-!
# Renaming a series

A formula names a series by a string right after the symbol `series`. Renaming
replaces the string in that place and nowhere else: the same string as the value of
a keyword, or as the name of a group, is something else.
-/

namespace SeriesAlgebra

namespace Tree

/-- Whether the item is the symbol after which the name of a series stands. -/
def isSeriesSymbol : Tree → Bool
  | atom (.symbol name) => name == seriesOperator
  | _ => false

mutual

/-- **The formula in which the series `old` is called `new`.** -/
def renameSeries (old new : String) : Tree → Tree
  | atom l => atom l
  | list items => list (renameItems old new false items)

/-- The items of a list after renaming; `named` tells whether the symbol `series` stands right
before the first. -/
def renameItems (old new : String) (named : Bool) : List Tree → List Tree
  | [] => []
  | item :: rest => renameItem old new named item :: renameItems old new item.isSeriesSymbol rest

/-- One item of a list after renaming. -/
def renameItem (old new : String) (named : Bool) : Tree → Tree
  | atom (.str name) => if named && name == old then str new else str name
  | atom l => atom l
  | list items => list (renameItems old new false items)

end

end Tree

end SeriesAlgebra
