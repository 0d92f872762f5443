import SeriesAlgebra.Engine.Policy
import SeriesAlgebra.Json.Reading

/-!
# Configuration

The settings of an engine are a JSON object. A setting that is missing has its
default, and unknown members are ignored; a setting that is given twice or has the
wrong type makes the document invalid. An array gives the settings by position.

Formulas must be allowed to nest, so a depth of zero is refused, but only in a
document that is otherwise valid.
-/

namespace SeriesAlgebra

/-- Why a configuration is refused. -/
inductive ConfigError
  /-- The document is no configuration. -/
  | invalid
  /-- Formulas may not nest at all. -/
  | zeroDepth
  deriving DecidableEq, Repr

/-- The wording of an error. -/
def ConfigError.message : ConfigError → String
  | invalid => "invalid engine configuration"
  | zeroDepth => "max_depth must be greater than zero"

/-- The settings of an engine. -/
structure Config where
  namespaceName : String
  policy : Policy
  /-- How deep formulas may refer to formulas. -/
  maxDepth : Nat
  /-- Whether staircases of pointwise formulas are assembled from those of their leaves. -/
  fastStaircase : Bool
  deriving DecidableEq, Repr

namespace Config

/-- The settings where nothing is said. -/
def initial : Config := ⟨"tsh", .strict, 64, true⟩

/-- The elements of an object or an array under given names; at most one for each name. -/
def settings? (names : List String) : Json → Option (List (Option Json))
  | .obj members =>
    names.mapM fun name =>
      match members.filter (·.1 == name) with
      | [] => some none
      | [(_, value)] => some (some value)
      | _ => none
  | .arr items =>
    if names.length < items.length then none
    else some (names.zipIdx.map fun (_, position) => items[position]?)
  | _ => none

/-- A setting, converted if it is given. -/
def setting? {α : Type} (read? : Json → Option α) (initial : α) : Option Json → Option α
  | some j => read? j
  | none => some initial

/-- A policy, both of whose settings must be given. -/
def policyOf? (j : Json) : Option Policy :=
  match settings? ["mode", "reject_unknown_series"] j with
  | some [some mode, some rejects] => do return ⟨← mode.choice?.bind PolicyMode.ofName?, ← rejects.bool?⟩
  | _ => none

/-- A depth: an integer of 64 bits without sign. -/
def depthOf? (j : Json) : Option Nat :=
  j.int?.bind fun n => if 0 ≤ n then some n.toNat else none

/-- The settings of a document. -/
def ofJson? (j : Json) : Option Config :=
  match settings? ["namespace", "policy", "max_depth", "fast_staircase"] j with
  | some [name, policy, depth, fast] => do
    return ⟨← setting? Json.str? initial.namespaceName name, ← setting? policyOf? initial.policy policy,
      ← setting? depthOf? initial.maxDepth depth, ← setting? Json.bool? initial.fastStaircase fast⟩
  | _ => none

/-- Formulas must be allowed to nest. -/
def validate (c : Config) : Except ConfigError Config :=
  if c.maxDepth = 0 then .error .zeroDepth else .ok c

/-- **The settings of a text.** -/
def parse (text : String) : Except ConfigError Config :=
  match (Json.parse? text).bind ofJson? with
  | some c => c.validate
  | none => .error .invalid

end Config

end SeriesAlgebra
