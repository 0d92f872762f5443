import SeriesAlgebra.Decimal.Reading
import SeriesAlgebra.Text.Blank

/-!
# Fill policies

A point may be there without a value: its value is then a NaN, and we call it
missing. A fill policy is a list of methods that give missing points a value, each
applied to what the one before it left: the nearest value before, the nearest value
after, or a fixed value. Points that have a value keep it.

A policy is written as its methods with commas between them (`FillPolicy.parse`),
for instance `ffill,bfill` or `pad, 0`.
-/

namespace SeriesAlgebra

/-- What stands for a missing value. -/
def missing : Float := 0.0 / 0.0

/-- One way to give missing points a value. -/
inductive FillMethod
  /-- The nearest value before. -/
  | forward
  /-- The nearest value after. -/
  | backward
  /-- A fixed value. -/
  | value (x : Float)

/-- Methods, applied from the first to the last. -/
structure FillPolicy where
  methods : List FillMethod

namespace FillMethod

/-- Every missing value replaced by the nearest one before it, `last` before the first. -/
def carry (last : Option Float) : List Float → List Float
  | [] => []
  | x :: rest =>
    if x.isNaN then last.getD x :: carry last rest else x :: carry (some x) rest

/-- The values after one method. -/
def apply (values : List Float) : FillMethod → List Float
  | forward => carry none values
  | backward => (carry none values.reverse).reverse
  | value fill => values.map fun x => if x.isNaN then fill else x

/-- The method of a name or of a number. -/
def parse? (word : List Char) : Option FillMethod :=
  match String.ofList word with
  | "ffill" => some forward
  | "pad" => some forward
  | "bfill" => some backward
  | "backfill" => some backward
  | _ => (Decimal.readFloat? word).map value

/-! ### Laws -/

@[simp] theorem length_carry (last : Option Float) (values : List Float) :
    (carry last values).length = values.length := by
  induction values generalizing last with
  | nil => rfl
  | cons x rest ih => unfold carry; split <;> simp [ih]

/-- A method changes values, never their number. -/
@[simp] theorem length_apply (values : List Float) (m : FillMethod) :
    (apply values m).length = values.length := by
  cases m <;> simp [apply]

end FillMethod

namespace FillPolicy

/-- The values after all methods of a policy. -/
def apply (p : FillPolicy) (values : List Float) : List Float :=
  p.methods.foldl FillMethod.apply values

/-- The parts of a list between the occurrences of a separator. -/
def splitOn (separator : Char) : List Char → List (List Char)
  | [] => [[]]
  | c :: rest =>
    match splitOn separator rest with
    | [] => [[c]]
    | part :: parts => if c = separator then [] :: part :: parts else (c :: part) :: parts

/-- The methods that a text lists; nothing between two commas is no method. The answer is
`none` if a part is no method, or if no part is left. -/
def parse? (text : String) : Option FillPolicy :=
  let words := ((splitOn ',' text.toList).map Text.trimChars).filter (!·.isEmpty)
  if words.isEmpty then none else (words.mapM FillMethod.parse?).map FillPolicy.mk

/-- A policy changes values, never their number. -/
@[simp] theorem length_apply (p : FillPolicy) (values : List Float) :
    (p.apply values).length = values.length := by
  obtain ⟨methods⟩ := p
  simp only [apply]
  induction methods generalizing values with
  | nil => rfl
  | cons m rest ih => simp [ih]

end FillPolicy

end SeriesAlgebra
