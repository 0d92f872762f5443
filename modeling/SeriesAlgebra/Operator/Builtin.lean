import SeriesAlgebra.Formula.Tree
import SeriesAlgebra.Typing.Signature

/-!
# The operators that are always there

Twenty operators are built in. This file says what can be known about them without
evaluating anything: their names, their signatures, and three properties that the
analyses of formulas use –

* an operator is **pointwise** if its result at a stamp depends only on what its
  arguments say at that stamp;
* an operator is **autotrophic** if its results have a history of their own, and do
  not depend on stored series;
* an operator may **force** the series below it to count as aware of time zones, or
  as naive.
-/

namespace SeriesAlgebra

/-- A built-in operator. -/
inductive Builtin
  | series
  | group
  | options
  | plus
  | times
  | divide
  | add
  | priority
  | min
  | max
  | rowMean
  | abs
  | round
  | clip
  | slice
  | cumsum
  | naive
  | date
  | constant
  | groupAdd
  deriving DecidableEq, Repr

namespace Builtin

/-- All built-in operators. -/
def all : List Builtin :=
  [series, group, options, plus, times, divide, add, priority, min, max, rowMean, abs, round, clip,
   slice, cumsum, naive, date, constant, groupAdd]

/-- The symbol of an operator in formulas. -/
def name : Builtin → String
  | series => Tree.seriesOperator
  | group => Tree.groupOperator
  | options => Tree.optionsOperator
  | plus => "+"
  | times => "*"
  | divide => "/"
  | add => "add"
  | priority => "priority"
  | min => "min"
  | max => "max"
  | rowMean => "row-mean"
  | abs => "abs"
  | round => "round"
  | clip => "clip"
  | slice => "slice"
  | cumsum => "cumsum"
  | naive => "naive"
  | date => "date"
  | constant => "constant"
  | groupAdd => "group-add"

/-- A signature with the keywords of series options. -/
def withSeriesOptions (s : Signature) : Signature :=
  ((s.withKeyword "fill" [.str, .number]).withKeyword "prune" [.int]).withKeyword "weight" [.number]

/-- What an operand of arithmetic may be. -/
def operand : List TypeTag := [.number, .series, .table]

/-- What a date may be. -/
def dateLike : List TypeTag := [.timestamp, .str]

/-- Arithmetic of two operands. -/
def arithmeticSignature (scalarOperand : Bool) : Signature :=
  ⟨[operand, operand], .exactly 2, [], .broadcast, scalarOperand⟩

/-- What an operator takes and returns. -/
def signature : Builtin → Signature
  | series => withSeriesOptions (.fixed [[.str]] .series)
  | group => .fixed [[.str]] .table
  | options => withSeriesOptions (.fixed [[.series]] .series)
  | plus => arithmeticSignature true
  | times | divide => arithmeticSignature false
  | add | priority | min | max | rowMean => .variadic 1 [.series] (.fixed .series)
  | abs | cumsum => .fixed [[.series]] .series
  | round => (Signature.fixed [[.series]] .series).withKeyword "decimals" [.int]
  | clip =>
    ((Signature.fixed [[.series]] .series).withKeyword "min" [.number]).withKeyword "max" [.number]
  | slice =>
    ((Signature.fixed [[.series]] .series).withKeyword "fromdate" dateLike).withKeyword
      "todate" dateLike
  | naive => .fixed [[.series], [.str]] .series
  | date => (Signature.fixed [[.str]] .timestamp).withKeyword "tz" [.str]
  | constant => .fixed [[.number], dateLike, dateLike, [.str], dateLike] .series
  | groupAdd => .variadic 1 [.table, .series, .number] (.fixed .table)

/-- Whether a staircase of the operator's arguments gives the staircase of its result. The
operator `naive` moves stamps away from the insertion dates they belong to, so it is not
pointwise. -/
def isPointwise : Builtin → Bool
  | group | cumsum | naive | constant | groupAdd => false
  | _ => true

/-- Whether the operator has a history of its own. -/
def isAutotrophic : Builtin → Bool
  | constant => true
  | _ => false

/-- How the operator makes the series below it count: aware of time zones, naive, or as they
are. -/
def forcedAwareness : Builtin → Option Bool
  | naive => some false
  | _ => none

/-- The stored series that a call with given arguments names itself, if the operator names any;
then nothing below the call is looked at. -/
def namedSeries? (args : List Tree) : Builtin → Option (List String)
  | series => (args.head?.bind Tree.str?).map fun name => [name]
  | _ => none

end Builtin

end SeriesAlgebra
