import SeriesAlgebra.Formula.Call
import SeriesAlgebra.Operator.Registry

/-!
# What a formula refers to

Before a formula is accepted it is searched for what it needs: operators, and stored
series. A call refers to series if its operator says so, and then the search does not
go into its arguments.

Two further questions are about histories. The history of a formula is replayed from
the histories of its **leaves** (`Tree.historyLeaves`), which are its series
references outside autotrophic calls, and those calls. And its staircase can be
assembled from the staircases of its references if every operator in it is pointwise
and no leaf is filled or pruned (`Tree.isPointwise`), because these two read
neighbouring points.
-/

namespace SeriesAlgebra

namespace Tree

/-- The operators of a formula that a registry does not know, in the order in which they first
appear. -/
def unknownOperators (registry : Registry) (t : Tree) : List String :=
  t.operators.filter fun symbol => !registry.contains symbol

/-- A formula must use known operators only. -/
def checkOperators (registry : Registry) (t : Tree) : Except EngineError Unit :=
  match t.unknownOperators registry with
  | [] => .ok ()
  | unknown => .error (.unknownOperators unknown)

/-- The series that a call names itself. -/
def namedSeries? (registry : Registry) (t : Tree) : Option (List String) :=
  (registry.operatorOf? t).bind (Operator.namedSeries? t.args)

mutual

/-- The series a formula refers to, as often as it does. -/
def references (registry : Registry) : Tree → List String
  | atom _ => []
  | list [] => []
  | list (head :: args) =>
    match namedSeries? registry (list (head :: args)) with
    | some names => names
    | none => referencesOfAll registry args

/-- The series several formulas refer to. -/
def referencesOfAll (registry : Registry) : List Tree → List String
  | [] => []
  | t :: rest => t.references registry ++ referencesOfAll registry rest

end

/-- **The series a formula refers to**, each once, in order. -/
def seriesReferences (registry : Registry) (t : Tree) : List String :=
  sortedSet (t.references registry)

/-- Each series a formula refers to, in order, with whether it exists. -/
def seriesExistence (registry : Registry) (isThere : String → Bool) (t : Tree) :
    List (String × Bool) :=
  (t.seriesReferences registry).map fun name => (name, isThere name)

/-! ### Leaves of a history -/

/-- A part of a formula that has a history. -/
inductive HistoryLeaf
  | series (name : String)
  | autotrophic (call : Tree)

mutual

/-- The leaves of the history of a formula, in the order in which they are written. -/
def leavesOfHistory (registry : Registry) : Tree → List HistoryLeaf
  | atom _ => []
  | list [] => []
  | list (head :: args) =>
    match registry.operatorOf? (list (head :: args)) with
    | none => []
    | some op =>
      if op.isAutotrophic then [.autotrophic (list (head :: args))]
      else match op.namedSeries? args with
        | some names => names.map .series
        | none => leavesOfHistoryOfAll registry args

/-- The leaves of the histories of several formulas. -/
def leavesOfHistoryOfAll (registry : Registry) : List Tree → List HistoryLeaf
  | [] => []
  | t :: rest => t.leavesOfHistory registry ++ leavesOfHistoryOfAll registry rest

end

/-- What the history of a formula is replayed from. -/
structure HistoryLeaves where
  series : List String
  autotrophic : List Tree

/-- **What the history of a formula is replayed from**: series, each once and in order, and
autotrophic calls as they are written. -/
def historyLeaves (registry : Registry) (t : Tree) : HistoryLeaves :=
  let leaves := t.leavesOfHistory registry
  { series := sortedSet <| leaves.filterMap fun
      | .series name => some name
      | .autotrophic _ => none
    autotrophic := leaves.filterMap fun
      | .series _ => none
      | .autotrophic call => some call }

/-! ### Pointwise formulas -/

/-- Whether a node is a leaf or a wrapper that reads neighbouring points of its series. -/
def readsNeighbours (t : Tree) : Bool :=
  if t.operator? = some seriesOperator ∨ t.operator? = some optionsOperator then
    match t.callArgs with
    | .ok args => (args.keyword? "fill").isSome || (args.keyword? "prune").isSome
    | .error _ => true
  else false

/-- Whether the operator at a node, if there is one, works point by point. -/
def isPointwiseNode (registry : Registry) (t : Tree) : Bool :=
  match t.operator? with
  | none => true
  | some symbol => (registry.find? symbol).any (·.isPointwise) && !t.readsNeighbours

/-- **Whether the staircase of a formula can be assembled** from those of its references. -/
def isPointwise (registry : Registry) (t : Tree) : Bool :=
  t.nodes.all (isPointwiseNode registry)

end Tree

end SeriesAlgebra
