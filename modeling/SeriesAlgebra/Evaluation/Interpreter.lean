import SeriesAlgebra.Formula.Call
import SeriesAlgebra.Operator.Registry

/-!
# Evaluating formulas

There is one evaluator, and what a leaf stands for is the business of a **resolver**:
it gives the series of a name and the table of a group for the query at hand, and may
answer an autotrophic call itself. Plain reads, histories, staircases and scenarios
are all evaluation, with different resolvers.

A resolver may keep a state – what it has read so far, or a memory of its answers –
so evaluation is a computation with a state that may fail, and the state reached is
there even if it fails (`Reading`).

Keywords of a call are evaluated before its positional arguments, both in the order
in which they are written.
-/

namespace SeriesAlgebra

/-- A computation that changes a state of type `σ` and may fail. -/
abbrev Reading (σ : Type) := ExceptT EngineError (StateM σ)

/-- What leaves stand for. -/
structure Resolver (σ : Type) where
  series : String → Query → Reading σ Series
  group : String → Query → Reading σ Frame
  /-- The value of an autotrophic call, if the resolver knows better than the operator. -/
  autotrophic : Tree → Query → Reading σ (Option Value)

namespace Resolver

/-- No answer to autotrophic calls. -/
def noAutotrophic {σ : Type} (_ : Tree) (_ : Query) : Reading σ (Option Value) := pure none

end Resolver

namespace Evaluation

variable {σ : Type}

/-- A step that does not touch the state. -/
def settle {α : Type} : Except EngineError α → Reading σ α
  | .ok a => pure a
  | .error e => throw e

/-- The arguments of a call must pair keywords and values. -/
def checkCall (t : Tree) : Reading σ Unit :=
  match t.callArgs with
  | .ok _ => pure ()
  | .error e => throw (.tree e)

/-- The error of a call whose head is no known operator. -/
def unknownHead (head : Tree) : EngineError :=
  match head.literal?.bind Literal.symbol? with
  | some symbol => .unknownOperators [symbol]
  | none => .tree (.malformedList 0)

/-- A call of `series` once its keywords are evaluated. -/
def readSeries (resolver : Resolver σ) (name : String) (keywords : OrderedMap String Value)
    (query : Query) : Reading σ Value := do
  let options ← settle (SeriesOptions.unset.update Builtin.series.name keywords)
  return .series ((← resolver.series name query).withOptions options)

/-- What an operator makes of evaluated arguments. -/
def applyOperator (op : Operator) (args : Args) (query : Query) : Reading σ Value :=
  match op with
  | .builtin b => settle (b.apply args query)
  | .extension e => settle (e.apply args query)

/-- What the arguments of an operator are asked for. -/
def childQuery (op : Operator) (keywords : OrderedMap String Value) (query : Query) :
    Reading σ Query :=
  match op with
  | .builtin b => settle (b.childQuery keywords query)
  | .extension _ => pure query

mutual

/-- **The value of a formula.** -/
def evaluate (registry : Registry) (resolver : Resolver σ) : Tree → Query → Reading σ Value
  | .atom l, _ => pure (.ofLiteral l)
  | .list [], _ => throw (.tree (.malformedList 0))
  | .list (head :: args), query => do
    let call := Tree.list (head :: args)
    match registry.operatorOf? call with
    | none => throw (unknownHead head)
    | some op =>
      let known ← if op.isAutotrophic then resolver.autotrophic call query else pure none
      match known, op with
      | some v, _ => pure v
      | none, .builtin .series =>
        match call.seriesName? with
        | none => throw (.invalidArgument Builtin.series.name .noSeriesName)
        | some name =>
          checkCall call
          let keywords ← evaluateKeywords registry resolver args query
          readSeries resolver name (.ofList keywords) query
      | none, .builtin .group =>
        match call.firstName? Builtin.group.name with
        | none => throw (.invalidArgument Builtin.group.name .noGroupName)
        | some name => return .table (← resolver.group name query)
      | none, op =>
        checkCall call
        let keywords ← OrderedMap.ofList <$> evaluateKeywords registry resolver args query
        let positional ← evaluatePositional registry resolver args (← childQuery op keywords query)
        applyOperator op ⟨positional, keywords⟩ query

/-- The values of the keywords among the arguments of a call. -/
def evaluateKeywords (registry : Registry) (resolver : Resolver σ) :
    List Tree → Query → Reading σ (List (String × Value))
  | [], _ => pure []
  | [_], _ => pure []
  | a :: b :: rest, query =>
    match a.keywordName? with
    | some name => do
      let v ← evaluate registry resolver b query
      return (name, v) :: (← evaluateKeywords registry resolver rest query)
    | none => evaluateKeywords registry resolver (b :: rest) query

/-- The values of the positional arguments among the arguments of a call. -/
def evaluatePositional (registry : Registry) (resolver : Resolver σ) :
    List Tree → Query → Reading σ (List Value)
  | [], _ => pure []
  | [a], query => do
    match a.keywordName? with
    | some _ => pure []
    | none => return [← evaluate registry resolver a query]
  | a :: b :: rest, query =>
    match a.keywordName? with
    | some _ => evaluatePositional registry resolver rest query
    | none => do
      let v ← evaluate registry resolver a query
      return v :: (← evaluatePositional registry resolver (b :: rest) query)

end

/-- The evaluated arguments of a call whose operator is not applied. -/
def evaluateArgs (registry : Registry) (resolver : Resolver σ) (call : Tree) (query : Query) :
    Reading σ Args := do
  checkCall call
  let keywords ← evaluateKeywords registry resolver call.args query
  let positional ← evaluatePositional registry resolver call.args query
  return ⟨positional, .ofList keywords⟩

end Evaluation

end SeriesAlgebra
