import SeriesAlgebra.Engine.Error
import SeriesAlgebra.Formula.Tree
import SeriesAlgebra.Order.Map

/-!
# Values

Evaluating a formula gives a value: a scalar, a stamp, a series or a table. An
operator takes its evaluated arguments (`Args`) and asks each for the kind of value
it needs; a value of another kind is an error that names both kinds.
-/

namespace SeriesAlgebra

/-- What a formula evaluates to. -/
inductive Value
  | int (n : Int64)
  | number (x : Float)
  | str (text : String)
  | timestamp (t : Stamp)
  | series (s : Series)
  | table (f : Frame)

namespace Value

/-- The value of a literal; a symbol counts as a string. -/
def ofLiteral : Literal → Value
  | .int n => int n
  | .float x => number x
  | .str text => str text
  | .symbol name => str name

/-- The kind of a value. -/
def type : Value → TypeTag
  | int _ => .int
  | number _ => .number
  | str _ => .str
  | timestamp _ => .timestamp
  | series _ => .series
  | table _ => .table

/-- The error of an operator that wants another kind of value. -/
def mismatch (v : Value) (operator : String) (expected : TypeTag) : EngineError :=
  .invalidValue operator expected v.type

/-- The value as a double. -/
def asFloat (operator : String) : Value → Except EngineError Float
  | int n => .ok (Literal.floatOfInt n)
  | number x => .ok x
  | v => .error (v.mismatch operator .number)

/-- The value as an integer; a double without fraction will do, the nearest integer of 64 bits being
taken if it is too large. -/
def asInt (operator : String) : Value → Except EngineError Int64
  | int n => .ok n
  | number x =>
    if x.isFinite && x.floor == x then .ok x.toInt64
    else .error ((number x).mismatch operator .int)
  | v => .error (v.mismatch operator .int)

/-- The value as a text. -/
def asString (operator : String) : Value → Except EngineError String
  | str text => .ok text
  | v => .error (v.mismatch operator .str)

/-- The value as a stamp, which may be written as a text. -/
def asStamp (operator : String) : Value → Except EngineError Stamp
  | timestamp t => .ok t
  | str text => (Stamp.parse text).mapError .stamp
  | v => .error (v.mismatch operator .timestamp)

/-- The value as a series. -/
def asSeries (operator : String) : Value → Except EngineError Series
  | series s => .ok s
  | v => .error (v.mismatch operator .series)

/-- The value as a table; a series is a table of one column. -/
def asTable (operator : String) : Value → Except EngineError Frame
  | table f => .ok f
  | series s => (Frame.ofSeries? [s]).mapError .frame
  | v => .error (v.mismatch operator .table)

end Value

/-- The evaluated arguments of a call. -/
structure Args where
  positional : List Value
  keywords : OrderedMap String Value

namespace Args

/-- The value of a keyword. -/
def keyword? (args : Args) (name : String) : Option Value := args.keywords.find? name

/-- The argument at a position. -/
def get (args : Args) (position : Nat) (operator : String) : Except EngineError Value :=
  match args.positional[position]? with
  | some v => .ok v
  | none => .error (.invalidArgument operator (.missing position))

end Args

end SeriesAlgebra
