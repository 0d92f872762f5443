import SeriesAlgebra.Operator.Application

/-!
# Registries

A registry says which operator a symbol stands for. Besides the built-in operators
there may be **extensions**, each a record of what must be known about an operator:
its name, its signature, what it makes of its arguments, and the properties that
analyses use, for most of which there is a default (`Extension.plain`).

An autotrophic extension brings its own history: the versions of a call and their
insertion dates.
-/

namespace SeriesAlgebra

/-- An operator that is not built in. -/
structure Extension where
  name : String
  signature : Signature
  apply : Args → Query → Except EngineError Value
  /-- The stored series that a call with given arguments names itself. -/
  namedSeries? : List Tree → Option (List String)
  /-- How the series below a call count: aware of time zones, naive, or as they are. -/
  forcedAwareness : Option Bool
  isAutotrophic : Bool
  /-- The versions of an autotrophic call. -/
  history : Args → HistoryQuery → Except EngineError History
  /-- The insertion dates of an autotrophic call. -/
  insertionDates : Args → Window → Except EngineError (List InsertionDate)
  isPointwise : Bool

/-- An extension of which no more is known than what it computes. -/
def Extension.plain (name : String) (signature : Signature)
    (apply : Args → Query → Except EngineError Value) : Extension where
  name := name
  signature := signature
  apply := apply
  namedSeries? _ := none
  forcedAwareness := none
  isAutotrophic := false
  history _ _ := .ok .empty
  insertionDates _ _ := .ok []
  isPointwise := false

/-- What a symbol may stand for. -/
inductive Operator
  | builtin (b : Builtin)
  | extension (e : Extension)

namespace Operator

/-- The symbol of an operator. -/
def name : Operator → String
  | builtin b => b.name
  | extension e => e.name

/-- What an operator takes and returns. -/
def signature : Operator → Signature
  | builtin b => b.signature
  | extension e => e.signature

/-- Whether staircases of the arguments give the staircase of the result. -/
def isPointwise : Operator → Bool
  | builtin b => b.isPointwise
  | extension e => e.isPointwise

/-- Whether the operator has a history of its own. -/
def isAutotrophic : Operator → Bool
  | builtin b => b.isAutotrophic
  | extension e => e.isAutotrophic

/-- How the operator makes the series below it count. -/
def forcedAwareness : Operator → Option Bool
  | builtin b => b.forcedAwareness
  | extension e => e.forcedAwareness

/-- The stored series that a call with given arguments names itself. -/
def namedSeries? (args : List Tree) : Operator → Option (List String)
  | builtin b => b.namedSeries? args
  | extension e => e.namedSeries? args

/-- The versions of an autotrophic call. -/
def history (args : Args) (query : HistoryQuery) : Operator → Except EngineError History
  | builtin .constant => do (← Constant.ofArgs args).history query
  | builtin _ => .ok .empty
  | extension e => e.history args query

/-- The insertion dates of an autotrophic call. -/
def insertionDates (args : Args) (inserted : Window) :
    Operator → Except EngineError (List InsertionDate)
  | builtin .constant => do return (← Constant.ofArgs args).insertionDates inserted
  | builtin _ => .ok []
  | extension e => e.insertionDates args inserted

end Operator

/-- The operators that symbols stand for. -/
structure Registry where
  operators : OrderedMap String Operator

namespace Registry

/-- The registry in which no symbol stands for anything. -/
def empty : Registry := ⟨.empty⟩

/-- The registry of the built-in operators. -/
def builtin : Registry := ⟨.ofList (Builtin.all.map fun b => (b.name, .builtin b))⟩

/-- The registry in which the name of an extension stands for it. -/
def register (r : Registry) (e : Extension) : Registry :=
  ⟨r.operators.insert e.name (.extension e)⟩

/-- The operator of a symbol. -/
def find? (r : Registry) (symbol : String) : Option Operator := r.operators.find? symbol

/-- Whether a symbol stands for an operator. -/
def contains (r : Registry) (symbol : String) : Bool := r.operators.contains symbol

/-- The symbols, in order. -/
def names (r : Registry) : List String := r.operators.keys

/-- The operator of a call. -/
def operatorOf? (r : Registry) (t : Tree) : Option Operator := t.operator?.bind r.find?

end Registry

end SeriesAlgebra
