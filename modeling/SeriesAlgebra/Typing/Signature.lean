import SeriesAlgebra.Typing.Tag

/-!
# Signatures

A signature says which arguments an operator takes: how many by position and of
which types, which keywords and of which types, and what the call returns. The last
place of a signature stands for all further arguments of an operator that takes any
number of them.
-/

namespace SeriesAlgebra

/-- How many positional arguments there may be. -/
inductive Arity
  | exactly (count : Nat)
  | atLeast (count : Nat)
  deriving DecidableEq, Repr

namespace Arity

/-- Whether a number of arguments is admitted. -/
def admits : Arity → Nat → Bool
  | exactly count, n => n == count
  | atLeast count, n => count ≤ n

/-- An arity in words. -/
def describe : Arity → String
  | exactly count => toString count
  | atLeast count => s!"at least {count}"

end Arity

/-- The type of a call: always the same, or that of arithmetic on the positional arguments. -/
inductive Returns
  | fixed (tag : TypeTag)
  | broadcast
  deriving DecidableEq, Repr

/-- What an operator takes and returns. -/
structure Signature where
  /-- The types admitted at each place. -/
  positional : List (List TypeTag)
  arity : Arity
  keywords : List (String × List TypeTag)
  returns : Returns
  /-- Whether one of two positional arguments must be a number. -/
  scalarOperand : Bool
  deriving DecidableEq, Repr

namespace Signature

/-- An operator with a fixed number of arguments. -/
def fixed (positional : List (List TypeTag)) (returns : TypeTag) : Signature :=
  ⟨positional, .exactly positional.length, [], .fixed returns, false⟩

/-- An operator with any number of arguments from a least one on, all of the same types. -/
def variadic (least : Nat) (each : List TypeTag) (returns : Returns) : Signature :=
  ⟨[each], .atLeast least, [], returns, false⟩

/-- The signature with one more keyword. -/
def withKeyword (s : Signature) (name : String) (types : List TypeTag) : Signature :=
  { s with keywords := s.keywords ++ [(name, types)] }

/-- The types admitted at a place. -/
def expectedAt (s : Signature) (position : Nat) : List TypeTag :=
  (s.positional[position]?.orElse fun _ => s.positional.getLast?).getD []

/-- The types admitted for a keyword. -/
def keyword? (s : Signature) (name : String) : Option (List TypeTag) := s.keywords.lookup name

end Signature

end SeriesAlgebra
