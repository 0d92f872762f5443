import SeriesAlgebra.Formula.Tree

/-!
# Writing formulas

The text of a formula has one space between the elements of a list and none
elsewhere. A string stands between quotation marks; a quotation mark, a backslash, a
line end or a tab inside it is written with a backslash, and every other character
as it is.
-/

namespace SeriesAlgebra

namespace Tree

/-- A character of a string as it is written in a formula. -/
def writeChar (c : Char) : List Char :=
  match c with
  | '"' => ['\\', '"']
  | '\\' => ['\\', '\\']
  | '\n' => ['\\', 'n']
  | '\t' => ['\\', 't']
  | _ => [c]

/-- A literal as it is written in a formula. -/
def writeLiteral : Literal → List Char
  | .str text => '"' :: (text.toList.flatMap writeChar ++ ['"'])
  | l => l.text.toList

mutual

/-- The characters of a formula. -/
def write : Tree → List Char
  | atom l => writeLiteral l
  | list items => '(' :: (writeAll items ++ [')'])

/-- The characters of several formulas, with a space between any two. -/
def writeAll : List Tree → List Char
  | [] => []
  | t :: rest => t.write ++ writeMore rest

/-- The characters of several formulas, with a space before each. -/
def writeMore : List Tree → List Char
  | [] => []
  | t :: rest => ' ' :: (t.write ++ writeMore rest)

end

/-- **The text of a formula.** -/
def text (t : Tree) : String := String.ofList t.write

end Tree

end SeriesAlgebra
