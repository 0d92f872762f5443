/-!
# JSON documents

Configuration, metadata and records of bindings are JSON documents. The members of an
object keep the order in which they are written. A number that is written as an
integer of 64 bits, with or without sign, is an integer, and any other number a
double.

The grammar lets a string name half of a surrogate pair, which is no character. Such
a string may stand in a document but has no value, so it can be passed over and not
be read.
-/

namespace SeriesAlgebra

/-- A JSON document. -/
inductive Json
  | null
  | bool (b : Bool)
  | int (n : Int)
  | float (x : Float)
  | str (s : String)
  | arr (items : List Json)
  | obj (members : List (String × Json))
  /-- A string that is no text, or an object with such a key. -/
  | unpaired

namespace Json

instance : Inhabited Json := ⟨null⟩

/-- The text of a string. -/
def str? : Json → Option String
  | str s => some s
  | _ => none

/-- The value of a truth value. -/
def bool? : Json → Option Bool
  | bool b => some b
  | _ => none

/-- The value of an integer. -/
def int? : Json → Option Int
  | int n => some n
  | _ => none

/-- The elements of an array. -/
def arr? : Json → Option (List Json)
  | arr items => some items
  | _ => none

/-- The members of an object. -/
def members? : Json → Option (List (String × Json))
  | obj members => some members
  | _ => none

/-- The member of an object under a key. -/
def field? (j : Json) (key : String) : Option Json := j.members?.bind (·.lookup key)

/-- The name of a choice: a string, or an object with that name as its only key and nothing under
it. -/
def choice? : Json → Option String
  | str name => some name
  | obj [(name, null)] => some name
  | _ => none

/-- The integers a document can hold: those of 64 bits, with or without sign. -/
def intInRange (n : Int) : Bool := -Int.pow 2 63 ≤ n && n < Int.pow 2 64

end Json

end SeriesAlgebra
