import SeriesAlgebra.Evaluation.Value

/-!
# Options from keywords

The keywords `fill`, `prune` and `weight` of a call set the options of a series. What
a keyword does not mention stays as it is.
-/

namespace SeriesAlgebra

namespace SeriesOptions

/-- The fill policy of a value: a text lists methods, a number is a fixed value. -/
def fillOf (operator : String) : Value → Except EngineError FillPolicy
  | .str text => (FillPolicy.parse text).mapError .frame
  | v => (v.asFloat operator).map fun x => ⟨[.value x]⟩

/-- The number of points to leave out. -/
def pruneOf (operator : String) (v : Value) : Except EngineError Nat := do
  let count := (← v.asInt operator).toInt
  if count < 0 then throw (.invalidArgument operator .negativePrune)
  return count.toNat

/-- An optional value converted. -/
def convert {α : Type} (v : Option Value) (f : Value → Except EngineError α) :
    Except EngineError (Option α) :=
  match v with
  | some v => (f v).map some
  | none => .ok none

/-- The options with those that keywords set. -/
def update (o : SeriesOptions) (operator : String) (keywords : OrderedMap String Value) :
    Except EngineError SeriesOptions := do
  let fill ← convert (keywords.find? "fill") (fillOf operator)
  let prune ← convert (keywords.find? "prune") (pruneOf operator)
  let weight ← convert (keywords.find? "weight") (·.asFloat operator)
  return ⟨fill.or o.fill, prune.or o.prune, weight.or o.weight⟩

end SeriesOptions

end SeriesAlgebra
