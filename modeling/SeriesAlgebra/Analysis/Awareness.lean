import SeriesAlgebra.Operator.Registry

/-!
# Awareness of time zones

The stamps of a series are in universal time, and the series is **aware** of time
zones, or they are clock times and the series is **naive**. A formula must not mix the
two. Each series it refers to counts as what the nearest operator around it makes of
it, and as what it is stored as if no operator does; the path of operators to it tells
why.
-/

namespace SeriesAlgebra

/-- A reference to a series: the path of operators that leads to it, and whether it counts as
aware, if that is known. -/
structure ReferenceAwareness where
  series : String
  path : String
  aware : Option Bool
  deriving DecidableEq, Repr

namespace ReferenceAwareness

/-- A reference in words. -/
def describe (r : ReferenceAwareness) : String :=
  let status := match r.aware with
    | some true => "tzaware"
    | some false => "naive"
    | none => "unknown"
  s!"({r.series}, {r.path}): {status}"

end ReferenceAwareness

namespace Tree

/-- The operator of a call and how many operators are around it. -/
def pathStep (symbol : String) (depth : Nat) : String := symbol ++ "@" ++ toString depth

/-- The references that a call makes itself. -/
def namedAwareness (names : List String) (path : List String) (forced : Option Bool)
    (lookup : String → Option Bool) : List ReferenceAwareness :=
  names.map fun name => ⟨name, "/".intercalate path, forced.or (lookup name)⟩

mutual

/-- The references of a formula below a path of operators, the innermost of which that forces
awareness makes them count as `forced`. -/
def awarenessBelow (registry : Registry) (lookup : String → Option Bool) (path : List String)
    (forced : Option Bool) : Tree → List ReferenceAwareness
  | atom _ => []
  | list [] => []
  | list (head :: args) =>
    match (list (head :: args)).operator? with
    | none => []
    | some symbol =>
      let op := registry.find? symbol
      let forced := (op.bind Operator.forcedAwareness).or forced
      let path := path ++ [pathStep symbol path.length]
      match op.bind (Operator.namedSeries? args) with
      | some names => namedAwareness names path forced lookup
      | none => awarenessOfAll registry lookup path forced args

/-- The references of several formulas below a path of operators. -/
def awarenessOfAll (registry : Registry) (lookup : String → Option Bool) (path : List String)
    (forced : Option Bool) : List Tree → List ReferenceAwareness
  | [] => []
  | t :: rest =>
    t.awarenessBelow registry lookup path forced ++ awarenessOfAll registry lookup path forced rest

end

/-- **The awareness of every reference of a formula**; `lookup` tells that of a stored series. -/
def awareness (registry : Registry) (lookup : String → Option Bool) (t : Tree) :
    List ReferenceAwareness :=
  t.awarenessBelow registry lookup [] none

end Tree

/-- The awareness that all references with a known one have in common, if there is any. -/
def commonAwareness (formula : String) (references : List ReferenceAwareness) :
    Except EngineError (Option Bool) :=
  match references.filterMap ReferenceAwareness.aware with
  | [] => .ok none
  | first :: rest =>
    if rest.all (· == first) then .ok (some first)
    else .error (.timezoneMismatch formula (references.map ReferenceAwareness.describe))

end SeriesAlgebra
