import SeriesAlgebra.Decimal.Layout
import SeriesAlgebra.Order.SortedSet
import SeriesAlgebra.Typing.Error

/-!
# Formula trees

A formula is a tree whose leaves are literals: strings, integers, doubles and
symbols. A list whose first element is a symbol is a **call** of that operator, and
the rest of the list are its arguments. A symbol that starts with `#:` is a keyword.

Trees are compared by `Tree.same`, for which a NaN equals a NaN. All that is
collected from a tree is read off the list of its nodes in the order in which they
are written (`Tree.nodes`).
-/

namespace SeriesAlgebra

/-- A leaf of a formula. -/
inductive Literal
  | str (text : String)
  | int (value : Int64)
  | float (value : Float)
  | symbol (name : String)

/-- A formula. -/
inductive Tree
  | atom (literal : Literal)
  | list (items : List Tree)

instance : Inhabited Tree := ⟨.list []⟩

namespace Literal

/-- What a keyword starts with. -/
def keywordMark : String := "#:"

/-- The keyword of a name. -/
def keyword (name : String) : Literal := symbol (keywordMark ++ name)

/-- The name of a keyword. -/
def keywordName? : Literal → Option String
  | symbol name =>
    match name.toList with
    | '#' :: ':' :: rest => some (String.ofList rest)
    | _ => none
  | _ => none

/-- Whether a literal is a keyword. -/
def isKeyword (l : Literal) : Bool := l.keywordName?.isSome

/-- The type of a literal as an argument; a symbol counts as a string. -/
def type : Literal → TypeTag
  | str _ => .str
  | int _ => .int
  | float _ => .number
  | symbol _ => .str

/-- The text of a string. -/
def str? : Literal → Option String
  | str text => some text
  | _ => none

/-- The name of a symbol. -/
def symbol? : Literal → Option String
  | symbol name => some name
  | _ => none

/-- The double nearest to an integer. -/
def floatOfInt (n : Int64) : Float := Float.ofInt n.toInt

/-- The value of a number. -/
def toFloat : Literal → Except TypingError Float
  | int n => .ok (floatOfInt n)
  | float x => .ok x
  | str text => .error (.nonNumeric text .str)
  | symbol name => .error (.nonNumeric name .str)

/-- Equality of literals, a NaN being equal to a NaN. -/
def same : Literal → Literal → Bool
  | str s, str t => s == t
  | int m, int n => m == n
  | float x, float y => (x.isNaN && y.isNaN) || x == y
  | symbol s, symbol t => s == t
  | _, _ => false

/-- A literal by itself: a string is quoted so that everything in it shows. -/
def text : Literal → String
  | str text => Text.quoted text
  | int n => toString n.toInt
  | float x => Decimal.exactText x
  | symbol name => name

end Literal

namespace Tree

/-- A string. -/
def str (text : String) : Tree := atom (.str text)

/-- A symbol. -/
def symbol (name : String) : Tree := atom (.symbol name)

/-- The operator that names a stored series or another formula. -/
def seriesOperator : String := "series"

/-- The operator that attaches options to a series. -/
def optionsOperator : String := "options"

/-- The operator that names a group. -/
def groupOperator : String := "group"

/-- The literal of a leaf. -/
def literal? : Tree → Option Literal
  | atom l => some l
  | list _ => none

/-- The text of a string. -/
def str? (t : Tree) : Option String := t.literal?.bind Literal.str?

/-- The name of a keyword. -/
def keywordName? (t : Tree) : Option String := t.literal?.bind Literal.keywordName?

/-- The operator at the head of a list. -/
def headSymbol? (items : List Tree) : Option String :=
  (items.head?.bind literal?).bind Literal.symbol?

/-- The operator of a call. -/
def operator? : Tree → Option String
  | atom _ => none
  | list items => headSymbol? items

/-- What follows the head of a list. -/
def args : Tree → List Tree
  | atom _ => []
  | list items => items.tail

/-- The string right after the operator, in a call of the given operator. -/
def firstName? (operator : String) (t : Tree) : Option String :=
  if t.operator? = some operator then t.args.head?.bind str? else none

/-- The name of a series leaf. -/
def seriesName? (t : Tree) : Option String := t.firstName? seriesOperator

/-! ### The tree as a whole -/

mutual

/-- How deep lists are nested; a leaf has depth zero. -/
def depth : Tree → Nat
  | atom _ => 0
  | list items => 1 + depthOfAll items

/-- The greatest depth of several trees. -/
def depthOfAll : List Tree → Nat
  | [] => 0
  | t :: rest => max t.depth (depthOfAll rest)

end

mutual

/-- The tree and all its parts, in the order in which they are written. -/
def nodes : Tree → List Tree
  | atom l => [atom l]
  | list items => list items :: nodesOfAll items

/-- The nodes of several trees. -/
def nodesOfAll : List Tree → List Tree
  | [] => []
  | t :: rest => t.nodes ++ nodesOfAll rest

end

mutual

/-- Equality of trees, a NaN being equal to a NaN. -/
def same : Tree → Tree → Bool
  | atom l, atom m => l.same m
  | list items, list others => sameAll items others
  | _, _ => false

/-- Equality of lists of trees. -/
def sameAll : List Tree → List Tree → Bool
  | [], [] => true
  | t :: rest, u :: others => t.same u && sameAll rest others
  | _, _ => false

end

/-- The operators of a tree, each once, in the order in which they first appear. -/
def operators (t : Tree) : List String := (t.nodes.filterMap operator?).eraseDups

/-- The names that stand right after an operator, in order. -/
def leafNames (operator : String) (t : Tree) : List String :=
  sortedSet (t.nodes.filterMap (firstName? operator))

end Tree

end SeriesAlgebra
