import SeriesAlgebra.Engine.Error

/-!
# Metadata

A formula has metadata: members of a JSON object, in the order in which they first
came. Five keys are internal; they follow from the awareness of the formula and only
the engine sets them. All other keys belong to the user and survive when a formula is
registered again.
-/

namespace SeriesAlgebra

/-- The members of a JSON object. -/
abbrev Metadata := List (String × Json)

namespace Metadata

/-- The keys that only the engine sets. -/
def internalKeys : List String :=
  ["tzaware", "index_type", "index_dtype", "value_type", "value_dtype"]

/-- Whether only the engine sets a key. -/
def isInternal (key : String) : Bool := internalKeys.contains key

/-- The metadata of a formula that is aware of time zones or naive. -/
def initial (aware : Bool) : Metadata :=
  [("tzaware", .bool aware),
   ("index_type", .str (if aware then "datetime64[ns, UTC]" else "datetime64[ns]")),
   ("index_dtype", .str (if aware then "|M8[ns]" else "<M8[ns]")),
   ("value_type", .str "float64"),
   ("value_dtype", .str "<f8")]

/-- The members with one set: in its place if there is one, else at the end. -/
def set (m : Metadata) (key : String) (value : Json) : Metadata :=
  match m with
  | [] => [(key, value)]
  | (k, v) :: rest => if k = key then (key, value) :: rest else (k, v) :: set rest key value

/-- The members with several set. -/
def setAll (m : Metadata) (updates : Metadata) : Metadata :=
  updates.foldl (fun m (key, value) => m.set key value) m

/-- New metadata with the user's members of the old. -/
def withPreserved (fresh : Metadata) (previous : Option Metadata) : Metadata :=
  fresh.setAll ((previous.getD []).filter fun (key, _) => !isInternal key)

/-- The user's updates of metadata, which must leave the internal keys alone. -/
def update (m updates : Metadata) : Except EngineError Metadata :=
  match (updates.map (·.1)).find? isInternal with
  | some key => .error (.protectedMetadata key)
  | none => .ok (m.setAll updates)

/-- Whether metadata say that a formula is aware. -/
def aware? (m : Metadata) : Option Bool := (List.lookup "tzaware" m).bind Json.bool?

end Metadata

end SeriesAlgebra
