import SeriesAlgebra.Engine.Replay

/-!
# Staircases

The staircase of a series for a delay takes each value date from the version that was
in effect that much earlier. For a formula there are two ways to it: replay the whole
history and take the staircase of that, or, if the formula is pointwise, assemble it
from the staircases of its references. The second way is taken where the settings
allow it.
-/

namespace SeriesAlgebra

namespace Engine

open Evaluation

variable {σ : Type}

/-- The reader for which some names stand for their staircases. -/
def climbing (reader : Resolver σ) (stairs : OrderedMap String Series) : Resolver σ where
  series name query :=
    match stairs.find? name with
    | some s => pure (s.window query.window)
    | none => reader.series name query
  group := reader.group
  autotrophic := Resolver.noAutotrophic

/-- The staircase of a history. -/
def staircaseOf (name : String) (delay : Span) (window : Window) (h : History) :
    Except EngineError Series :=
  (History.staircase h name delay window).mapError .frame

/-- A pointwise formula evaluated over the staircases of its references, which `stairOf` gives. -/
def assembleStaircase (e : Engine) (stairOf : String → Except EngineError (Option Series))
    (name : String) (t : Tree) (window : Window) : Except EngineError Series := do
  let stairs ← (t.seriesReferences e.registry).mapM fun leaf => do
    match ← stairOf leaf with
    | some s => return (leaf, s)
    | none => throw (.unknownName leaf)
  let v ← answerOf (evaluate e.registry (climbing e.reader (.ofList stairs)) t (.latestIn window))
  return (← v.asSeries name).withName name

/-- The staircase of a formula from its whole history. -/
def replayStaircase (e : Engine) (name : String) (delay : Span) (window : Window) :
    Except EngineError (Option Series) := do
  match ← e.history name (.allIn window) with
  | some h => return some (← staircaseOf name delay window h)
  | none => return none

/-- The staircase of a series or formula, with a number of levels left. -/
def staircaseWithin (e : Engine) (delay : Span) (window : Window) :
    Nat → String → Except EngineError (Option Series)
  | 0, name => .error (.tree (.cycle [name]))
  | levels + 1, name => do
    if e.formulas.contains name then
      let t ← e.expandedTree name
      if e.config.fastStaircase && t.isPointwise e.registry then
        return some (← e.assembleStaircase (e.staircaseWithin delay window levels) name t window)
      else e.replayStaircase name delay window
    else e.replayStaircase name delay window

/-- **The staircase of a series or formula** for a delay, in a window. -/
def staircase (e : Engine) (name : String) (delay : Span) (window : Window) :
    Except EngineError (Option Series) :=
  e.staircaseWithin delay window e.replayLevels name

/-! ### An engine as a source -/

/-- **An engine as a source** for another. -/
def toSource (e : Engine) : Source where
  name := e.config.namespaceName
  contains := e.contains
  read? := e.read
  history? := e.history
  insertionDates := e.insertionDates
  formula? := e.formula
  components? := e.components
  metadata? := e.metadata

end Engine

end SeriesAlgebra
