import SeriesAlgebra.Decimal.Reading
import SeriesAlgebra.Formula.Tree
import SeriesAlgebra.Json.Basic

/-!
# Formulas as JSON documents

In a JSON document every node of a formula is an object with the members `kind` and
`value`, or an array of the two: an `atom` has a literal as its value, which is such a
pair again, and a `list` an array of nodes. In an object the kind may be written as
any choice (`Json.choice?`), in an array as a string only.
-/

namespace SeriesAlgebra

namespace Json

/-- A kind with its value. -/
def tagged (kind : String) (value : Json) : Json := obj [("kind", .str kind), ("value", value)]

/-- The kind and the value of a pair. -/
def tagged? : Json → Option (String × Json)
  | obj members => do return (← (← members.lookup "kind").choice?, ← members.lookup "value")
  | arr [kind, value] => kind.str?.map fun kind => (kind, value)
  | _ => none

end Json

namespace Literal

/-- A literal as a document. -/
def toJson : Literal → Json
  | str text => .tagged "str" (.str text)
  | int n => .tagged "int" (.int n.toInt)
  | float x => .tagged "float" (.float x)
  | symbol name => .tagged "symbol" (.str name)

/-- The number of a document. -/
def numberOf? : Json → Option Float
  | .float x => some x
  | .int n => some (Float.ofInt n)
  | _ => none

/-- The literal of a document. An integer is never read from a double, but a double may be from an
integer. -/
def ofJson? (j : Json) : Option Literal :=
  match j.tagged? with
  | some ("str", value) => value.str?.map str
  | some ("int", value) => (value.int?.bind Decimal.toInt64?).map int
  | some ("float", value) => (numberOf? value).map float
  | some ("symbol", value) => value.str?.map symbol
  | _ => none

end Literal

namespace Tree

mutual

/-- A formula as a document. -/
def toJson : Tree → Json
  | atom l => .tagged "atom" l.toJson
  | list items => .tagged "list" (.arr (toJsonAll items))

/-- Several formulas as documents. -/
def toJsonAll : List Tree → List Json
  | [] => []
  | t :: rest => t.toJson :: toJsonAll rest

end

/-- The formula of a kind and a value, which is a list of formulas with given items if it is a
list. -/
def ofKind? (kind : Option String) (value : Json) (items : Option (List Tree)) : Option Tree :=
  match kind with
  | some "list" => items.map list
  | some "atom" => (Literal.ofJson? value).map atom
  | _ => none

mutual

/-- The formula of a document. -/
def ofJson? : Json → Option Tree
  | .obj members => ofMembers? none none members
  | .arr [kind, value] => ofKind? kind.str? value (ofItems? value)
  | _ => none

/-- The formula of the members of an object, after its kind and its value if they came already; of
members with one key the first counts. The items of a list are read as the value is met. -/
def ofMembers? (kind : Option Json) (value : Option (Json × Option (List Tree))) :
    List (String × Json) → Option Tree
  | [] =>
    match kind, value with
    | some kind, some (j, items) => ofKind? kind.choice? j items
    | _, _ => none
  | (key, j) :: rest =>
    if key = "kind" ∧ kind.isNone then ofMembers? (some j) value rest
    else if key = "value" ∧ value.isNone then
      ofMembers? kind (some (j, ofItems? j)) rest
    else ofMembers? kind value rest

/-- The formulas of an array. -/
def ofItems? : Json → Option (List Tree)
  | .arr items => ofJsonAll? items
  | _ => none

/-- The formulas of several documents. -/
def ofJsonAll? : List Json → Option (List Tree)
  | [] => some []
  | j :: rest => do return (← ofJson? j) :: (← ofJsonAll? rest)

end

end Tree

end SeriesAlgebra
