import SeriesAlgebra.Calendar.Stamp

/-!
# Time zones

A zone tells how far its clocks are ahead of universal time. Some zones never
change their clocks; the others put them forward on a certain Sunday of the year
and back on another, by the rules in force in 2023, 2024 and 2025.

From universal time to the clocks of a zone there is always one answer
(`Zone.toLocal`). Backwards there may be none, for an hour skipped in spring, or
two, for an hour repeated in autumn; `Zone.earliest?` takes the first of them.
-/

namespace SeriesAlgebra

/-- A moment that comes once a year: a number of seconds after the start, in universal time, of
a Sunday, which is the first one on or after a day of a month. -/
structure YearlyMoment where
  month : Nat
  fromDay : Nat
  seconds : Int
  deriving Repr

/-- Clocks that are put forward and back every year. All times are in seconds. -/
structure Season where
  forward : YearlyMoment
  back : YearlyMoment
  saving : Int
  deriving Repr

/-- A zone: its name, how far its clocks are ahead of universal time outside the season of
daylight saving, and that season. -/
structure Zone where
  name : String
  standard : Int
  season : Option Season
  deriving Repr

namespace YearlyMoment

/-- The moment of a given year, in seconds since the start of 1970. Day 0 was a Thursday. -/
def inYear (m : YearlyMoment) (year : Int) : Int :=
  let first := Date.toDays ⟨year, m.month, m.fromDay⟩
  (first + (3 - first) % 7) * 86400 + m.seconds

end YearlyMoment

namespace Season

/-- Whether daylight saving is in force at a moment of universal time. -/
def isOn (s : Season) (second : Int) : Bool :=
  let year := (Date.ofDays (second / 86400)).year
  let forward := s.forward.inYear year
  let back := s.back.inYear year
  if forward < back then forward ≤ second && second < back
  else !(back ≤ second && second < forward)

end Season

namespace Zone

/-- Universal time. -/
def utc : Zone := ⟨"UTC", 0, none⟩

/-- The season of the European Union and of the United Kingdom: last Sunday of March to last
Sunday of October, at one o'clock universal time. -/
def europeanSeason : Season := ⟨⟨3, 25, 3600⟩, ⟨10, 25, 3600⟩, 3600⟩

/-- The season of the United States in a zone: second Sunday of March to first Sunday of
November, at two o'clock local time. -/
def americanSeason (standard : Int) : Season :=
  ⟨⟨3, 8, 7200 - standard⟩, ⟨11, 1, 3600 - standard⟩, 3600⟩

/-- The season of Lord Howe Island: first Sunday of October to first Sunday of April, at two
o'clock local time, by half an hour. -/
def lordHoweSeason : Season := ⟨⟨10, 1, 7200 - 37800⟩, ⟨4, 1, 5400 - 37800⟩, 1800⟩

/-- The zones there are. -/
def all : List Zone :=
  [utc,
   ⟨"Europe/Paris", 3600, some europeanSeason⟩,
   ⟨"Europe/London", 0, some europeanSeason⟩,
   ⟨"America/New_York", -18000, some (americanSeason (-18000))⟩,
   ⟨"Asia/Kolkata", 19800, none⟩,
   ⟨"Australia/Lord_Howe", 37800, some lordHoweSeason⟩,
   ⟨"Etc/GMT+5", -18000, none⟩]

/-- The zone of a name; upper and lower case differ. -/
def find? (name : String) : Option Zone := all.find? (·.name == name)

/-- How far the clocks of a zone are ahead at a moment of universal time. -/
def offsetAt (z : Zone) (second : Int) : Int :=
  match z.season with
  | none => z.standard
  | some season => if season.isOn second then z.standard + season.saving else z.standard

/-- The offsets a zone ever has, the larger one first. -/
def offsets (z : Zone) : List Int :=
  match z.season with
  | none => [z.standard]
  | some season => [z.standard + season.saving, z.standard]

/-- What the clocks of a zone show at a moment of universal time. -/
def toLocal (z : Zone) (s : Stamp) : Stamp := { s with second := s.second + z.offsetAt s.second }

/-- The first moment of universal time at which the clocks of a zone show a given time, if they
ever do: the larger the offset, the earlier the moment. -/
def earliest? (z : Zone) (clock : Stamp) : Option Stamp :=
  (z.offsets.find? fun offset => z.offsetAt (clock.second - offset) == offset).map fun offset =>
    { clock with second := clock.second - offset }

/-! ### Laws -/

/-- The moment found shows the clocks asked for. -/
theorem toLocal_of_earliest? {z : Zone} {clock s : Stamp} (h : z.earliest? clock = some s) :
    z.toLocal s = clock := by
  obtain ⟨offset, hfind, rfl⟩ := Option.map_eq_some_iff.1 h
  have hoff := List.find?_some hfind
  simp only [beq_iff_eq] at hoff
  exact Stamp.eq_of (by simp [toLocal, hoff]) rfl

end Zone

end SeriesAlgebra
