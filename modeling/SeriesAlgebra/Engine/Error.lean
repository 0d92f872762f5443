import SeriesAlgebra.Binding.Error
import SeriesAlgebra.Calendar.StampReading
import SeriesAlgebra.Formula.Error
import SeriesAlgebra.Store.Error
import SeriesAlgebra.Typing.Error

/-!
# Errors of the engine

Whatever goes wrong while a formula is registered, evaluated or managed is one of
these causes. Errors of the parts – trees, types, tables, stamps, the store – keep
their own causes and wording.
-/

namespace SeriesAlgebra

/-- What can be wrong with the argument of an operator. -/
inductive ArgumentFault
  | missing (position : Nat)
  | noSeriesName
  | noGroupName
  | leaf
  | noOperand
  | negativePrune
  | unknownZone (name : String)
  | skippedTime (text zone : String)
  | tooManyPoints (lower upper : Stamp)
  | invalidFrequency (text : String)
  | other (text : String)

namespace ArgumentFault

/-- The most points that one call of `constant` may give. -/
def pointLimit : Nat := 1000000

/-- The wording of a fault. -/
def message : ArgumentFault → String
  | missing position => s!"missing argument {position}"
  | noSeriesName => "expects a series name"
  | noGroupName => "expects a group name"
  | leaf => "leaves are resolved by the interpreter"
  | noOperand => "needs at least one operand"
  | negativePrune => "prune must not be negative"
  | unknownZone name => s!"unknown timezone `{name}`"
  | skippedTime text zone => s!"`{text}` does not exist in {zone}"
  | tooManyPoints lower upper =>
    s!"more than {pointLimit} points between {lower.text} and {upper.text}"
  | invalidFrequency text => s!"invalid frequency `{text}`"
  | other text => text

end ArgumentFault

/-- Why the engine refuses a call. -/
inductive EngineError
  | unknownOperators (names : List String)
  | unknownSeries (formula : String) (names : List String)
  | unknownGroups (formula : String) (names : List String)
  | timezoneMismatch (formula : String) (statuses : List String)
  | primaryExists (name : String)
  | formulaExists (name : String)
  | nameTaken (name : String)
  | notAFormula (name : String)
  | formulaUpdate (name : String)
  | renameConflict (new : String) (referencedBy : List String)
  | unknownName (name : String)
  | unknownGroup (name : String)
  | malformedBinding (fault : BindingFault)
  | missingScenario (group scenario : String)
  | noGroupMappings (formula : String)
  | protectedMetadata (key : String)
  | invalidValue (operator : String) (expected actual : TypeTag)
  | invalidArgument (operator : String) (fault : ArgumentFault)
  | typing (e : TypingError)
  | tree (e : TreeError)
  | frame (e : FrameError)
  | stamp (e : Stamp.Unreadable)
  | store (e : StoreError)

namespace EngineError

/-- The wording of an error. -/
def message : EngineError → String
  | unknownOperators names => "formula uses unknown operators: " ++ ", ".intercalate names
  | unknownSeries formula names =>
    s!"formula `{formula}` refers to unknown series " ++ Text.ticked names
  | unknownGroups formula names =>
    s!"formula `{formula}` refers to unknown groups " ++ Text.ticked names
  | timezoneMismatch formula statuses =>
    s!"formula `{formula}` mixes tz-aware and naive series: " ++ ", ".intercalate statuses
  | primaryExists name => s!"`{name}` is a primary series and cannot be turned into a formula"
  | formulaExists name => s!"formula `{name}` already exists"
  | nameTaken name => s!"`{name}` is already taken"
  | notAFormula name => s!"`{name}` is not a registered formula"
  | formulaUpdate name => s!"`{name}` is a formula and cannot be updated with raw values"
  | renameConflict new referencedBy =>
    s!"new name `{new}` is already referenced by " ++ Text.ticked referencedBy
  | unknownName name => s!"unknown series `{name}`"
  | unknownGroup name => s!"unknown group `{name}`"
  | malformedBinding fault => s!"malformed binding: {fault.message}"
  | missingScenario group scenario => s!"group `{group}` has no scenario `{scenario}`"
  | noGroupMappings formula => s!"formula `{formula}` resolves no group mappings"
  | protectedMetadata key => s!"metadata key `{key}` is managed by the engine"
  | invalidValue operator expected actual =>
    s!"operator `{operator}` expected a {expected.name} value, got {actual.name}"
  | invalidArgument operator fault => s!"operator `{operator}`: {fault.message}"
  | typing e => e.message
  | tree e => e.message
  | frame e => e.message
  | stamp e => e.message
  | store e => e.message

end EngineError

end SeriesAlgebra
