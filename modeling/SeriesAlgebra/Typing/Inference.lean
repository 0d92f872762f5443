import SeriesAlgebra.Formula.Call
import SeriesAlgebra.Operator.Registry

/-!
# Type inference

Every call is checked against the signature of its operator, inner calls before outer
ones: the number of positional arguments, their types from left to right, the number
that arithmetic needs on one side, and the keywords. What has no known operator has
the type `any`.
-/

namespace SeriesAlgebra

namespace Typing

/-- The error of a keyword without a value. -/
def ofTreeError (operator : String) : TreeError → TypingError
  | .danglingKeyword operator keyword => .danglingKeyword operator keyword
  | e => .danglingKeyword operator e.message

/-- An argument of some type at a place that admits certain types. -/
def checkPositional (operator : String) (s : Signature) (position : Nat) (actual : TypeTag) :
    Except TypingError Unit :=
  let expected := s.expectedAt position
  if TypeTag.anyAccepts expected actual then .ok ()
  else .error (.argumentMismatch operator position (TypeTag.describe expected) actual)

/-- A value of some type for a keyword that admits certain types. -/
def checkKeyword (operator keyword : String) (expected : List TypeTag) (actual : TypeTag) :
    Except TypingError Unit :=
  if TypeTag.anyAccepts expected actual then .ok ()
  else .error (.keywordMismatch operator keyword (TypeTag.describe expected) actual)

/-- As many positional arguments as the operator takes. -/
def checkArity (operator : String) (s : Signature) (count : Nat) : Except TypingError Unit :=
  if s.arity.admits count then .ok ()
  else .error (.arity operator s.arity.describe count)

/-- A number on one side, for an operator that needs one. -/
def checkScalarOperand (operator : String) (s : Signature) (types : List TypeTag) :
    Except TypingError Unit :=
  match types with
  | [left, right] =>
    if s.scalarOperand && !TypeTag.number.accepts left && !TypeTag.number.accepts right then
      .error (.noScalarOperand operator left right)
    else .ok ()
  | _ => .ok ()

/-- The type that a call returns. -/
def returned (s : Signature) (types : List TypeTag) : TypeTag :=
  match s.returns with
  | .fixed tag => tag
  | .broadcast => TypeTag.broadcast types

mutual

/-- **The type of a formula.** -/
def infer (registry : Registry) : Tree → Except TypingError TypeTag
  | .atom l => .ok l.type
  | .list [] => .ok .any
  | .list (head :: args) => do
    let call := Tree.list (head :: args)
    match registry.operatorOf? call with
    | none => return .any
    | some op =>
      let symbol := call.operator?.getD ""
      let told ← call.callArgs.mapError (ofTreeError symbol)
      checkArity symbol op.signature told.positional.length
      let types ← inferPositional registry symbol op.signature 0 args
      checkScalarOperand symbol op.signature types
      inferKeywords registry symbol op.signature args
      return returned op.signature types

/-- The types of the positional arguments of a call, the first of which has a position. -/
def inferPositional (registry : Registry) (operator : String) (s : Signature) (position : Nat) :
    List Tree → Except TypingError (List TypeTag)
  | [] => .ok []
  | [a] =>
    match a.keywordName? with
    | some _ => .ok []
    | none => do
      let actual ← infer registry a
      checkPositional operator s position actual
      return [actual]
  | a :: b :: rest =>
    match a.keywordName? with
    | some _ => inferPositional registry operator s position rest
    | none => do
      let actual ← infer registry a
      checkPositional operator s position actual
      return actual :: (← inferPositional registry operator s (position + 1) (b :: rest))

/-- The keywords of a call, checked. -/
def inferKeywords (registry : Registry) (operator : String) (s : Signature) :
    List Tree → Except TypingError Unit
  | [] => .ok ()
  | [_] => .ok ()
  | a :: b :: rest =>
    match a.keywordName? with
    | some keyword =>
      match s.keyword? keyword with
      | none => .error (.unknownKeyword operator keyword)
      | some expected => do
        checkKeyword operator keyword expected (← infer registry b)
        inferKeywords registry operator s rest
    | none => inferKeywords registry operator s (b :: rest)

end

/-- The type of a formula that must fit a place of a certain type. -/
def check (registry : Registry) (expected : TypeTag) (t : Tree) : Except TypingError TypeTag := do
  let actual ← infer registry t
  if expected.accepts actual then return actual else throw (.rootMismatch expected actual)

end Typing

end SeriesAlgebra
