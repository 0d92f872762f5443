import SeriesAlgebra.Calendar.Date

/-!
# Stamps

A stamp is a point of civil time to the nanosecond. It may lie inside a leap
second: then its nanosecond is `10 ^ 9` or more and its second is the one the
leap second follows, so that stamps are ordered by second and nanosecond in any
case.

Value dates and insertion dates are both stamps; insertion dates are always in
universal time.

A `Span` is an exact number of microseconds. Adding one to a stamp counts no leap
seconds, with one exception: a stamp inside a leap second leaves it through the
nearer end, and a span too short to leave it stays inside (`Stamp.shift`).
-/

namespace SeriesAlgebra

/-- A number of microseconds. -/
structure Span where
  micros : Int
  deriving DecidableEq, Repr

namespace Span

/-- So many microseconds. -/
def microseconds (n : Int) : Span := ⟨n⟩

/-- So many seconds. -/
def seconds (n : Int) : Span := ⟨n * 1000000⟩

/-- So many days. -/
def days (n : Int) : Span := seconds (n * 86400)

/-- The same length of time, backwards. -/
def negate (s : Span) : Span := ⟨-s.micros⟩

end Span

/-- A point of civil time: seconds since the start of 1970, and nanoseconds into that second,
from `10 ^ 9` on into the leap second after it. -/
structure Stamp where
  second : Int
  nano : Fin 2000000000
  deriving DecidableEq, Repr

/-- The date at which a version was inserted, in universal time. -/
abbrev InsertionDate := Stamp

namespace Stamp

instance : LT Stamp where
  lt a b := a.second < b.second ∨ a.second = b.second ∧ a.nano < b.nano

instance : LE Stamp where
  le a b := a.second < b.second ∨ a.second = b.second ∧ a.nano ≤ b.nano

theorem lt_def {a b : Stamp} :
    a < b ↔ a.second < b.second ∨ a.second = b.second ∧ a.nano < b.nano := Iff.rfl

theorem le_def {a b : Stamp} :
    a ≤ b ↔ a.second < b.second ∨ a.second = b.second ∧ a.nano ≤ b.nano := Iff.rfl

instance : DecidableLT Stamp := fun a b =>
  inferInstanceAs (Decidable (a.second < b.second ∨ a.second = b.second ∧ a.nano < b.nano))

instance : DecidableLE Stamp := fun a b =>
  inferInstanceAs (Decidable (a.second < b.second ∨ a.second = b.second ∧ a.nano ≤ b.nano))

instance : Max Stamp := maxOfLe

instance : Min Stamp := minOfLe

/-! ### The order -/

theorem eq_of {a b : Stamp} (hs : a.second = b.second) (hn : a.nano = b.nano) : a = b := by
  cases a; cases b; simp_all

theorem lt_irrefl (a : Stamp) : ¬ a < a := by
  simp [lt_def]

theorem lt_trans {a b c : Stamp} (hab : a < b) (hbc : b < c) : a < c := by
  simp only [lt_def, Fin.lt_def] at *
  omega

theorem not_lt {a b : Stamp} : ¬ a < b ↔ b ≤ a := by
  simp only [lt_def, le_def, Fin.lt_def, Fin.le_def]
  omega

theorem le_iff_lt_or_eq {a b : Stamp} : a ≤ b ↔ a < b ∨ a = b := by
  constructor
  · intro h
    simp only [le_def, lt_def, Fin.lt_def, Fin.le_def] at *
    by_cases he : a.second = b.second ∧ a.nano.val = b.nano.val
    · exact Or.inr (eq_of he.1 (Fin.ext he.2))
    · left; omega
  · rintro (h | rfl)
    · simp only [le_def, lt_def, Fin.lt_def, Fin.le_def] at *
      omega
    · simp [le_def]

theorem le_refl (a : Stamp) : a ≤ a := le_iff_lt_or_eq.2 (Or.inr rfl)

theorem le_trans {a b c : Stamp} (hab : a ≤ b) (hbc : b ≤ c) : a ≤ c := by
  simp only [le_def, Fin.le_def] at *
  omega

theorem le_total (a b : Stamp) : a ≤ b ∨ b ≤ a := by
  simp only [le_def, Fin.le_def]
  omega

/-! ### Arithmetic -/

/-- The nanoseconds from which on a stamp lies inside a leap second. -/
def leapNano : Nat := 1000000000

/-- Whether a stamp lies inside a leap second. -/
def isLeapSecond (s : Stamp) : Bool := leapNano ≤ s.nano.val

/-- The stamp `nano` nanoseconds into a second or the leap second after it. -/
def within (second : Int) (nano : Nat) : Stamp :=
  ⟨second, ⟨nano % 2000000000, Nat.mod_lt _ (by decide)⟩⟩

/-- The stamp `nanos` nanoseconds after the start of a second; `nanos` may have either sign and
any size. -/
def ofNanos (second nanos : Int) : Stamp :=
  ⟨second + nanos / 1000000000, ⟨(nanos % 1000000000).toNat, by omega⟩⟩

/-- The stamp a span later, or earlier for a negative span. -/
def shift (s : Stamp) (span : Span) : Stamp :=
  let whole := span.micros.tdiv 1000000
  let part := span.micros.tmod 1000000 * 1000
  let nanos := (s.nano.val : Int) + part
  if s.isLeapSecond then
    if 0 < whole ∨ 2000000000 ≤ nanos then ofNanos (s.second + whole) (nanos - 1000000000)
    else if whole < 0 then ofNanos (s.second + 1 + whole) (nanos - 1000000000)
    else within s.second nanos.toNat
  else ofNanos (s.second + whole) nanos

/-- The second of the day of a stamp. -/
def secondOfDay (s : Stamp) : Int := s.second % 86400

/-- The microseconds from one stamp to another, toward zero. A leap second that lies between the
two times of day counts. -/
def microsBetween (earlier later : Stamp) : Int :=
  let counted :=
    if earlier.secondOfDay < later.secondOfDay ∧ earlier.isLeapSecond then 1
    else if later.secondOfDay < earlier.secondOfDay ∧ later.isLeapSecond then -1
    else 0
  let seconds := later.second - earlier.second + counted
  let nanos := (later.nano.val : Int) - earlier.nano.val
  (seconds * 1000000000 + nanos).tdiv 1000

/-- Whether the year of a stamp can be written. -/
def inRange (s : Stamp) : Bool := Date.yearInRange (Date.ofDays (s.second / 86400)).year

/-! ### Text -/

/-- A stamp as date and time of day; a leap second is the sixtieth of its minute. -/
def text (s : Stamp) : String :=
  let time := s.secondOfDay.toNat
  let second := time % 60 + if s.isLeapSecond then 1 else 0
  String.ofList <|
    (Date.ofDays (s.second / 86400)).text ++ ' ' :: Date.padded 2 (time / 3600) ++
      ':' :: Date.padded 2 (time / 60 % 60) ++ ':' :: Date.padded 2 second

end Stamp

end SeriesAlgebra
