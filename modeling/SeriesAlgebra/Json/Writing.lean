import SeriesAlgebra.Decimal.Layout
import SeriesAlgebra.Json.Basic

/-!
# Writing JSON documents

A document is written on one line without blanks. A double that is no finite number,
and a string that is no text, is written as `null`.
-/

namespace SeriesAlgebra

namespace Json

/-- The hexadecimal digits of a number below 256. -/
def hexByte (n : Nat) : List Char := [Nat.digitChar (n / 16), Nat.digitChar (n % 16)]

/-- A character inside a string. -/
def writeChar (c : Char) : List Char :=
  match c with
  | '"' => ['\\', '"']
  | '\\' => ['\\', '\\']
  | '\n' => ['\\', 'n']
  | '\r' => ['\\', 'r']
  | '\t' => ['\\', 't']
  | _ =>
    if c.toNat = 8 then ['\\', 'b']
    else if c.toNat = 12 then ['\\', 'f']
    else if c.toNat < 32 then ['\\', 'u', '0', '0'] ++ hexByte c.toNat
    else [c]

/-- A string with its quotation marks. -/
def writeString (s : String) : String :=
  String.ofList ('"' :: s.toList.flatMap writeChar ++ ['"'])

mutual

/-- **The text of a document.** -/
def text : Json → String
  | null => "null"
  | bool b => if b then "true" else "false"
  | int n => toString n
  | float x => if x.isNaN || x.isInf then "null" else NumberLayout.document.write x
  | str s => writeString s
  | arr items => "[" ++ ",".intercalate (textOfItems items) ++ "]"
  | obj members => "\x7b" ++ ",".intercalate (textOfMembers members) ++ "\x7d"
  | unpaired => "null"

/-- The texts of the elements of an array. -/
def textOfItems : List Json → List String
  | [] => []
  | item :: rest => item.text :: textOfItems rest

/-- The texts of the members of an object. -/
def textOfMembers : List (String × Json) → List String
  | [] => []
  | (key, value) :: rest => (writeString key ++ ":" ++ value.text) :: textOfMembers rest

end

end Json

end SeriesAlgebra
