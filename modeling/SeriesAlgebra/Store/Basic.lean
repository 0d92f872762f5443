import SeriesAlgebra.Evaluation.Query
import SeriesAlgebra.Series.History
import SeriesAlgebra.Store.Error

/-!
# The store

The store keeps series and groups by name, and every version of each. A version is
never changed once it is there: an update adds one, at an insertion date after all
others.

An update of a series (`Store.update`) is compared with the latest version. What is
new or different is the effect of the update, and a missing value in it erases a
point. An update without effect adds no version. A group has full tables as versions,
which are not compared.
-/

namespace SeriesAlgebra

/-- A stored series: whether it is aware of time zones, as its first update said, and its
versions. -/
structure StoredSeries where
  aware : Bool
  versions : History

/-- The versions of a group. -/
abbrev FrameHistory := OrderedMap InsertionDate Frame

/-- Series and groups with their versions, by name. -/
structure Store where
  series : OrderedMap String StoredSeries
  groups : OrderedMap String FrameHistory

namespace Store

/-- The store without series and groups. -/
def empty : Store := ⟨.empty, .empty⟩

/-! ### Reading -/

/-- Whether there is a series of a name. -/
def contains (s : Store) (name : String) : Bool := s.series.contains name

/-- Whether there is a group of a name. -/
def containsGroup (s : Store) (name : String) : Bool := s.groups.contains name

/-- Whether the series of a name is aware of time zones. -/
def aware? (s : Store) (name : String) : Option Bool := (s.series.find? name).map (·.aware)

/-- The version of a series that a query asks for, empty if there is none in effect. -/
def read? (s : Store) (name : String) (query : Query) : Option Series :=
  (s.series.find? name).map fun stored =>
    match History.version? stored.versions query.revision with
    | some version => version.window query.window
    | none => Series.empty name

/-- The versions of a series inserted in a window, each cut to a window of value dates. -/
def history? (s : Store) (name : String) (inserted window : Window) : Option History :=
  (s.series.find? name).map fun stored =>
    (stored.versions.filter fun date _ => inserted.contains date).mapValues fun _ version =>
      version.window window

/-- The insertion dates of a series in a window. -/
def insertionDates (s : Store) (name : String) (inserted : Window) : List InsertionDate :=
  match s.series.find? name with
  | some stored => stored.versions.keys.filter inserted.contains
  | none => []

/-- The version of a group that a query asks for, empty if there is none in effect. -/
def readGroup? (s : Store) (name : String) (query : Query) : Option Frame :=
  (s.groups.find? name).map fun versions =>
    match History.version? versions query.revision with
    | some version => version.window query.window
    | none => Frame.empty

/-! ### Updating series -/

/-- Whether an insertion date is not after every date there is. -/
def isStale {α : Type} (versions : OrderedMap InsertionDate α) (date : InsertionDate) : Bool :=
  versions.last?.any fun (last, _) => decide (date ≤ last)

/-- What an update changes: everything with a value if there was nothing before. -/
def effect (current : Option Series) (update : Series) : Series :=
  match current with
  | some current => Series.diff (some current) update
  | none => update.dropMissing

/-- The points of a version after the points of an effect, of which missing values erase. -/
def applyEffect (current : OrderedMap Stamp Float) (effect : List (Stamp × Float)) :
    OrderedMap Stamp Float :=
  effect.foldl (fun points (t, x) => if x.isNaN then points.erase t else points.insert t x) current

/-- The points of the latest version. -/
def currentPoints (current : Option Series) : OrderedMap Stamp Float :=
  ⟨(current.map Series.points).getD []⟩

/-- **An update of a series.** The answer is the effect, or nothing if there is none, together with
the store after it. -/
def update (s : Store) (name : String) (update : Series) (date : InsertionDate) (aware : Bool) :
    Except StoreError (Option Series × Store) := do
  let stored := (s.series.find? name).getD ⟨aware, .empty⟩
  if isStale stored.versions date then throw (.staleInsertion name date)
  let current := stored.versions.last?.map (·.2)
  let effect := (effect current update).withName name
  if effect.isEmpty then return (none, s)
  let points := applyEffect (currentPoints current) effect.points
  let version ← (Series.ofPoints? name points.entries).mapError .frame
  let stored := { stored with versions := stored.versions.insert date version }
  return (some effect, { s with series := s.series.insert name stored })

/-- The store in which a series has another name, which must be free. -/
def rename (s : Store) (old new : String) : Except StoreError Store :=
  if s.series.contains new then .error (.nameTaken new)
  else match s.series.find? old with
    | none => .error (.unknownSeries old)
    | some stored =>
      let renamed := stored.versions.mapValues fun _ version => version.withName new
      .ok { s with series := (s.series.erase old).insert new { stored with versions := renamed } }

/-- The store without a series. -/
def delete (s : Store) (name : String) : Except StoreError Store :=
  if s.series.contains name then .ok { s with series := s.series.erase name }
  else .error (.unknownSeries name)

/-! ### Updating groups -/

/-- An update of a group. -/
def updateGroup (s : Store) (name : String) (table : Frame) (date : InsertionDate) :
    Except StoreError Store :=
  let versions := (s.groups.find? name).getD .empty
  if isStale versions date then .error (.staleInsertion name date)
  else .ok { s with groups := s.groups.insert name (versions.insert date table) }

/-- The store without a group. -/
def deleteGroup (s : Store) (name : String) : Except StoreError Store :=
  if s.groups.contains name then .ok { s with groups := s.groups.erase name }
  else .error (.unknownGroup name)

end Store

end SeriesAlgebra
