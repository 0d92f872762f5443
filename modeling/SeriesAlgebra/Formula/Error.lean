/-!
# Errors of formula text and of expansion

Positions count characters of the text. The first four errors are faults at a place
of the text that share their wording, so they have one function for what they say
and one for where.
-/

namespace SeriesAlgebra

/-- Why a text is no formula, or why a formula cannot be taken apart or expanded. -/
inductive TreeError
  | unterminatedString (position : Nat)
  | danglingEscape (position : Nat)
  | unexpectedClosing (position : Nat)
  | invalidNumber (position : Nat) (text : String)
  | unexpectedEnd
  | trailingInput (position : Nat)
  | malformedList (position : Nat)
  | danglingKeyword (operator keyword : String)
  | cycle (path : List String)
  | tooDeep (limit : Nat)
  deriving DecidableEq, Repr

namespace TreeError

/-- The wording of a fault at a place of the text. -/
def faultMessage (position : Nat) (fault : String) : String :=
  s!"parse error at {position}: {fault}"

/-- The wording of an error. -/
def message : TreeError → String
  | unterminatedString position => faultMessage position "unterminated string literal"
  | danglingEscape position => faultMessage position "dangling escape"
  | unexpectedClosing position => faultMessage position "unexpected ')'"
  | invalidNumber position text => faultMessage position s!"invalid number: {text}"
  | unexpectedEnd => "unexpected end of input"
  | trailingInput position => s!"unexpected trailing input at {position}"
  | malformedList position => s!"list at {position} must start with an operator symbol"
  | danglingKeyword operator keyword =>
    s!"keyword `{keyword}` of operator `{operator}` has no value"
  | cycle path => "formula reference cycle: " ++ " -> ".intercalate path
  | tooDeep limit => s!"nesting exceeds the maximum depth of {limit}"

end TreeError

end SeriesAlgebra
