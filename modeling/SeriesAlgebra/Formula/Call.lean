import SeriesAlgebra.Formula.Error
import SeriesAlgebra.Formula.Tree

/-!
# Calls

The arguments of a call come in a row, a keyword always right before its value.
`Tree.callArgs` tells the two kinds apart: the positional arguments, and the keywords
with their values, each in the order in which they are written.
-/

namespace SeriesAlgebra

/-- The arguments of a call. -/
structure CallArgs where
  positional : List Tree
  keywords : List (String × Tree)

namespace CallArgs

/-- The value of a keyword, the first one if it is given twice. -/
def keyword? (args : CallArgs) (name : String) : Option Tree := args.keywords.lookup name

/-- Arguments of the given operator, told apart. -/
def ofList (operator : String) : List Tree → Except TreeError CallArgs
  | [] => .ok ⟨[], []⟩
  | [a] =>
    match a.keywordName? with
    | some keyword => .error (.danglingKeyword operator keyword)
    | none => .ok ⟨[a], []⟩
  | a :: b :: rest =>
    match a.keywordName? with
    | some keyword =>
      (ofList operator rest).map fun args => { args with keywords := (keyword, b) :: args.keywords }
    | none =>
      (ofList operator (b :: rest)).map fun args => { args with positional := a :: args.positional }

end CallArgs

/-- **The arguments of a call**, told apart. -/
def Tree.callArgs (t : Tree) : Except TreeError CallArgs :=
  CallArgs.ofList (t.operator?.getD "") t.args

end SeriesAlgebra
