import SeriesAlgebra.Text.Quoted
import SeriesAlgebra.Typing.Tag

/-!
# Type errors

What can be wrong with the arguments of a call before anything is evaluated.
-/

namespace SeriesAlgebra

/-- A fault of types. Types that a place admits are described in one text. -/
inductive TypingError
  | argumentMismatch (operator : String) (position : Nat) (expected : String) (actual : TypeTag)
  | keywordMismatch (operator keyword expected : String) (actual : TypeTag)
  | arity (operator expected : String) (actual : Nat)
  | unknownKeyword (operator keyword : String)
  | danglingKeyword (operator keyword : String)
  | rootMismatch (expected actual : TypeTag)
  | nonNumeric (value : String) (tag : TypeTag)
  | noScalarOperand (operator : String) (left right : TypeTag)
  deriving DecidableEq, Repr

namespace TypingError

/-- The wording of an error. -/
def message : TypingError → String
  | argumentMismatch operator position expected actual =>
    s!"operator `{operator}` argument {position} expects {expected}, got {actual.name}"
  | keywordMismatch operator keyword expected actual =>
    s!"operator `{operator}` keyword `{keyword}` expects {expected}, got {actual.name}"
  | arity operator expected actual =>
    s!"operator `{operator}` expects {expected} positional arguments, got {actual}"
  | unknownKeyword operator keyword => s!"operator `{operator}` has no keyword `{keyword}`"
  | danglingKeyword operator keyword =>
    s!"keyword `{keyword}` of operator `{operator}` has no value"
  | rootMismatch expected actual =>
    s!"formula has type {actual.name}, expected {expected.name}"
  | nonNumeric value tag =>
    "value " ++ Text.quoted value ++ s!" has non-numeric type {tag.name}"
  | noScalarOperand operator left right =>
    s!"operator `{operator}` needs a number on one side, got {left.name} and {right.name}"

end TypingError

end SeriesAlgebra
