import SeriesAlgebra.Calendar.Stamp
import SeriesAlgebra.Decimal.Reading

/-!
# Frequencies

A frequency is a unit of time with a count in front, which may be left out: `D`,
`15min`, `2W`.
-/

namespace SeriesAlgebra

namespace Frequency

/-- The number of seconds of a unit. -/
def unitSeconds? (unit : String) : Option Int :=
  match unit with
  | "D" => some 86400
  | "H" => some 3600
  | "h" => some 3600
  | "min" => some 60
  | "T" => some 60
  | "S" => some 1
  | "s" => some 1
  | "W" => some 604800
  | _ => none

/-- The count of a frequency: one if there are no digits. -/
def countOf (ds : List Char) : Nat := if ds.isEmpty then 1 else Decimal.digitsValue ds

/-- **The span of a frequency.** The count is positive and fits into 31 bits. -/
def parse? (text : String) : Option Span :=
  let (ds, unit) := Decimal.takeDigits text.toList
  if countOf ds = 0 ∨ Nat.pow 2 31 ≤ countOf ds then none
  else (unitSeconds? (String.ofList unit)).map fun seconds => .seconds (seconds * countOf ds)

/-- A unit of time is never zero or negative. -/
theorem unitSeconds?_pos {unit : String} {seconds : Int} (h : unitSeconds? unit = some seconds) :
    0 < seconds := by
  unfold unitSeconds? at h
  split at h <;> first | (simp at h; omega) | simp at h

/-- A frequency is never zero or negative. -/
theorem parse?_pos {text : String} {span : Span} (h : parse? text = some span) :
    0 < span.micros := by
  simp only [parse?] at h
  split at h
  · simp at h
  · rename_i hcount
    obtain ⟨seconds, hunit, rfl⟩ := Option.map_eq_some_iff.1 h
    have hpos := unitSeconds?_pos hunit
    have hc : (0 : Int) < countOf (Decimal.takeDigits text.toList).1 := by omega
    have := Int.mul_pos hpos hc
    simp only [Span.seconds]
    omega

end Frequency

end SeriesAlgebra
