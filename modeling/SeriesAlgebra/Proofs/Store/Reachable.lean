import SeriesAlgebra.Proofs.Double
import SeriesAlgebra.Proofs.Order.Map
import SeriesAlgebra.Proofs.Result
import SeriesAlgebra.Store.Basic
import Mathlib.Data.List.Induction

/-!
# Stores that are reached

A store starts empty and changes by its operations (`Store.Reachable`). Whatever they
are, the versions of every series stay in the order of their insertion dates, and each
version has its points in order, no missing value and no options (`Store.Consistent`).

The calls that are made are data too (`Store.Change`), so that a sequence of them can be
run (`Store.run`), those that are refused included.
-/

namespace SeriesAlgebra

/-- **What is stored as a version**: points in order, with values, and no options. -/
structure Series.IsStored (s : Series) : Prop where
  sorted : s.IsSorted
  present : ∀ p ∈ s.points, p.2.isNaN = false
  unset : s.options = .unset

/-- What is stored of a series. -/
structure StoredSeries.IsConsistent (stored : StoredSeries) : Prop where
  sorted : stored.versions.IsSorted
  versions : ∀ date version, stored.versions.find? date = some version → version.IsStored

/-- A stored series with one more version. -/
def StoredSeries.withVersion (stored : StoredSeries) (date : InsertionDate) (version : Series) :
    StoredSeries :=
  { stored with versions := stored.versions.insert date version }

/-- A stored series whose versions have another name. -/
def StoredSeries.withName (stored : StoredSeries) (name : String) : StoredSeries :=
  { stored with versions := stored.versions.mapValues fun _ v => v.withName name }

namespace Store

/-- The store in which a name stands for a given series. -/
def withStored (s : Store) (name : String) (stored : StoredSeries) : Store :=
  { s with series := s.series.insert name stored }

/-- The store without a series. -/
def without (s : Store) (name : String) : Store := { s with series := s.series.erase name }

/-- The series that an update finds, which may be a new one. -/
def updated (s : Store) (name : String) (aware : Bool) : StoredSeries :=
  (s.series.find? name).getD ⟨aware, .empty⟩

theorem updated_of_some {s : Store} {name : String} {stored : StoredSeries}
    (h : s.series.find? name = some stored) (aware : Bool) : s.updated name aware = stored := by
  rw [updated, h, Option.getD_some]

theorem updated_of_none {s : Store} {name : String} (h : s.series.find? name = none)
    (aware : Bool) : s.updated name aware = ⟨aware, .empty⟩ := by
  rw [updated, h, Option.getD_none]

theorem contains_eq_false_iff {s : Store} {name : String} :
    s.contains name = false ↔ s.series.find? name = none := by
  rw [contains, OrderedMap.contains, Option.isSome_eq_false_iff, Option.isNone_iff_eq_none]

/-- **Stores that are reached** from the empty one by the operations there are. -/
inductive Reachable : Store → Prop
  | empty : Reachable .empty
  | update {s : Store} (h : s.Reachable) (name : String) (update : Series) (date : InsertionDate)
      (aware : Bool) {answer : Option Series × Store}
      (hanswer : s.update name update date aware = .ok answer) : Reachable answer.2
  | rename {s : Store} (h : s.Reachable) (old new : String) {s' : Store}
      (hs' : s.rename old new = .ok s') : Reachable s'
  | delete {s : Store} (h : s.Reachable) (name : String) {s' : Store}
      (hs' : s.delete name = .ok s') : Reachable s'
  | updateGroup {s : Store} (h : s.Reachable) (name : String) (table : Frame)
      (date : InsertionDate) {s' : Store} (hs' : s.updateGroup name table date = .ok s') :
      Reachable s'
  | deleteGroup {s : Store} (h : s.Reachable) (name : String) {s' : Store}
      (hs' : s.deleteGroup name = .ok s') : Reachable s'

/-- The invariant of stores. -/
structure Consistent (s : Store) : Prop where
  sorted : s.series.IsSorted
  stored : ∀ name stored, s.series.find? name = some stored → stored.IsConsistent

theorem consistent_empty : Consistent .empty := ⟨OrderedMap.isSorted_empty, fun _ _ h => by cases h⟩

/-! ### Points -/

/-- Whether points are in order and all have values. -/
def ArePoints (points : OrderedMap Stamp Float) : Prop :=
  points.IsSorted ∧ ∀ p ∈ points.entries, p.2.isNaN = false

theorem arePoints_erase {points : OrderedMap Stamp Float} (h : ArePoints points) (t : Stamp) :
    ArePoints (points.erase t) :=
  ⟨OrderedMap.isSorted_erase h.1 t, fun p hp => h.2 p (List.mem_filter.1 hp).1⟩

theorem arePoints_insert {points : OrderedMap Stamp Float} (h : ArePoints points) (t : Stamp)
    {x : Float} (hx : x.isNaN = false) : ArePoints (points.insert t x) := by
  refine ⟨OrderedMap.isSorted_insert h.1 t x, ?_⟩
  rintro ⟨u, y⟩ hp
  rcases OrderedMap.mem_insertEntry hp with ⟨-, rfl⟩ | hp
  · exact hx
  · exact h.2 _ hp

theorem arePoints_applyEffect {points : OrderedMap Stamp Float} (h : ArePoints points)
    (effect : List (Stamp × Float)) : ArePoints (applyEffect points effect) := by
  unfold applyEffect
  induction effect generalizing points with
  | nil => exact h
  | cons p rest ih =>
    obtain ⟨t, x⟩ := p
    rw [List.foldl_cons]
    apply ih
    dsimp only
    split
    · exact arePoints_erase h t
    · rename_i hx
      exact arePoints_insert h t (by simpa using hx)

theorem arePoints_currentPoints {current : Option Series} (h : ∀ s ∈ current, s.IsStored) :
    ArePoints (currentPoints current) := by
  cases current with
  | none => exact ⟨OrderedMap.isSorted_empty, fun _ hp => by cases hp⟩
  | some s => exact ⟨(h s rfl).sorted, (h s rfl).present⟩

theorem isStored_ofPoints? {name : String} {points : OrderedMap Stamp Float}
    (h : ArePoints points) {version : Series}
    (hversion : Series.ofPoints? name points.entries = .ok version) : version.IsStored := by
  unfold Series.ofPoints? at hversion
  split at hversion
  · obtain rfl := Except.ok.inj hversion
    exact ⟨h.1, h.2, rfl⟩
  · cases hversion

theorem isStored_withName {s : Series} (h : s.IsStored) (name : String) :
    (s.withName name).IsStored := ⟨h.sorted, h.present, h.unset⟩

/-! ### Versions -/

theorem isConsistent_insert {stored : StoredSeries} (h : stored.IsConsistent)
    (date : InsertionDate) {version : Series} (hversion : version.IsStored) :
    (stored.withVersion date version).IsConsistent := by
  refine ⟨OrderedMap.isSorted_insert h.sorted _ _, fun d v hv => ?_⟩
  rcases OrderedMap.find?_of_insert hv with ⟨-, rfl⟩ | hv
  · exact hversion
  · exact h.versions d v hv

theorem last?_isStored {stored : StoredSeries} (h : stored.IsConsistent) :
    ∀ s ∈ stored.versions.last?.map (·.2), s.IsStored := by
  intro s hs
  obtain ⟨⟨date, version⟩, hlast, rfl⟩ := Option.map_eq_some_iff.1 hs
  exact h.versions date version
    ((OrderedMap.mem_entries_iff h.sorted).1 (List.mem_of_getLast? hlast))

/-- **The version in effect at a revision** is stored as versions are. -/
theorem isStored_of_version? {stored : StoredSeries} (h : stored.IsConsistent)
    (revision : Option InsertionDate) {version : Series}
    (hversion : History.version? stored.versions revision = some version) : version.IsStored := by
  cases revision with
  | none => exact last?_isStored h version hversion
  | some date =>
    obtain ⟨⟨k, v⟩, hlast, rfl⟩ := Option.map_eq_some_iff.1 hversion
    have hmem := (List.mem_filter.1 (List.mem_of_getLast? hlast)).1
    exact h.versions k v ((OrderedMap.mem_entries_iff h.sorted).1 hmem)

/-! ### Operations -/

theorem consistent_withStored {s : Store} (h : s.Consistent) (name : String)
    {stored : StoredSeries} (hstored : stored.IsConsistent) :
    (s.withStored name stored).Consistent := by
  refine ⟨OrderedMap.isSorted_insert h.sorted _ _, fun n st hst => ?_⟩
  rcases OrderedMap.find?_of_insert hst with ⟨-, rfl⟩ | hst
  · exact hstored
  · exact h.stored n st hst

theorem consistent_without {s : Store} (h : s.Consistent) (name : String) :
    (s.without name).Consistent :=
  ⟨OrderedMap.isSorted_erase h.sorted _, fun n st hst =>
    h.stored n st (OrderedMap.find?_of_erase hst)⟩

/-- What an update makes of a store: the same, or a series with one version more. -/
theorem update_cases {s : Store} {name : String} {update : Series} {date : InsertionDate}
    {aware : Bool} {answer : Option Series × Store}
    (h : s.update name update date aware = .ok answer) :
    answer.2 = s ∨ ∃ (changes : List (Stamp × Float)) (version : Series),
      Series.ofPoints? name (applyEffect
        (currentPoints ((s.updated name aware).versions.last?.map (·.2))) changes).entries =
          .ok version ∧
      answer.2 = s.withStored name ((s.updated name aware).withVersion date version) := by
  unfold Store.update at h
  dsimp only at h
  split at h
  · cases h
  · change (if _ then _ else _) = _ at h
    split at h
    · obtain rfl := Except.ok.inj h
      exact Or.inl rfl
    · right
      cases hversion : Series.ofPoints? name (applyEffect
        (currentPoints ((s.updated name aware).versions.last?.map (·.2)))
        ((effect ((s.updated name aware).versions.last?.map (·.2))
          update).withName name).points).entries with
      | error e =>
        rw [updated] at hversion
        rw [hversion] at h
        cases h
      | ok version =>
        refine ⟨_, version, hversion, ?_⟩
        rw [updated] at hversion
        rw [hversion] at h
        obtain rfl := Except.ok.inj h
        rfl

theorem isConsistent_updated {s : Store} (h : s.Consistent) (name : String) (aware : Bool) :
    (s.updated name aware).IsConsistent := by
  cases hfind : s.series.find? name with
  | none =>
    rw [updated_of_none hfind]
    exact ⟨OrderedMap.isSorted_empty, fun _ _ h => by cases h⟩
  | some stored =>
    rw [updated_of_some hfind]
    exact h.stored name stored hfind

theorem consistent_update {s : Store} (h : s.Consistent) {name : String} {update : Series}
    {date : InsertionDate} {aware : Bool} {answer : Option Series × Store}
    (hanswer : s.update name update date aware = .ok answer) : answer.2.Consistent := by
  rcases update_cases hanswer with heq | ⟨changes, version, hversion, heq⟩
  · rw [heq]
    exact h
  · have hstored := isConsistent_updated h name aware
    rw [heq]
    exact consistent_withStored h name (isConsistent_insert hstored date
      (isStored_ofPoints? (arePoints_applyEffect
        (arePoints_currentPoints (last?_isStored hstored)) _) hversion))

/-- What renaming makes of a store. -/
theorem rename_ok {s s' : Store} {old new : String} (h : s.rename old new = .ok s') :
    s.series.contains new = false ∧ ∃ stored, s.series.find? old = some stored ∧
      s' = (s.without old).withStored new (stored.withName new) := by
  unfold rename at h
  split at h
  · cases h
  · rename_i hnew
    split at h
    · cases h
    · rename_i stored hstored
      obtain rfl := Except.ok.inj h
      exact ⟨by simpa using hnew, stored, hstored, rfl⟩

theorem isConsistent_withName {stored : StoredSeries} (h : stored.IsConsistent) (name : String) :
    (stored.withName name).IsConsistent := by
  refine ⟨OrderedMap.isSorted_mapValues h.sorted _, fun date version hversion => ?_⟩
  rw [StoredSeries.withName, OrderedMap.find?_mapValues] at hversion
  obtain ⟨v, hv, rfl⟩ := Option.map_eq_some_iff.1 hversion
  exact isStored_withName (h.versions date v hv) name

theorem consistent_rename {s s' : Store} (h : s.Consistent) {old new : String}
    (hs' : s.rename old new = .ok s') : s'.Consistent := by
  obtain ⟨-, stored, hstored, rfl⟩ := rename_ok hs'
  exact consistent_withStored (consistent_without h old) new
    (isConsistent_withName (h.stored old stored hstored) new)

theorem delete_ok {s s' : Store} {name : String} (h : s.delete name = .ok s') :
    s' = s.without name := by
  unfold delete at h
  split at h
  · exact (Except.ok.inj h).symm
  · cases h

/-- What an update makes of a group. -/
theorem updateGroup_ok {s s' : Store} {name : String} {table : Frame} {date : InsertionDate}
    (h : s.updateGroup name table date = .ok s') :
    s' = { s with groups :=
      s.groups.insert name (((s.groups.find? name).getD .empty).insert date table) } := by
  unfold updateGroup at h
  dsimp only at h
  split at h
  · cases h
  · exact (Except.ok.inj h).symm

theorem deleteGroup_ok {s s' : Store} {name : String} (h : s.deleteGroup name = .ok s') :
    s.containsGroup name = true ∧ s' = { s with groups := s.groups.erase name } := by
  unfold deleteGroup at h
  split at h
  · rename_i hname
    exact ⟨hname, (Except.ok.inj h).symm⟩
  · cases h

theorem updateGroup_series {s s' : Store} {name : String} {table : Frame} {date : InsertionDate}
    (h : s.updateGroup name table date = .ok s') : s'.series = s.series := by
  rw [updateGroup_ok h]

theorem deleteGroup_series {s s' : Store} {name : String} (h : s.deleteGroup name = .ok s') :
    s'.series = s.series := by
  rw [(deleteGroup_ok h).2]

/-! ### Names -/

/-- The series that an update can leave in a store. -/
theorem contains_update {s : Store} {name : String} {update : Series} {date : InsertionDate}
    {aware : Bool} {answer : Option Series × Store}
    (h : s.update name update date aware = .ok answer) {n : String} (hn : n ≠ name) :
    answer.2.contains n = s.contains n := by
  rcases update_cases h with heq | ⟨_, version, -, heq⟩
  · rw [heq]
  · rw [heq, Store.contains, OrderedMap.contains, withStored, OrderedMap.find?_insert_of_ne _ hn]
    rfl

/-- The stored series after a renaming. -/
theorem contains_rename {s s' : Store} {old new : String} (h : s.rename old new = .ok s')
    (name : String) : s'.contains name = true ↔
      name = new ∨ name ≠ old ∧ s.contains name = true := by
  obtain ⟨-, stored, -, rfl⟩ := rename_ok h
  rw [Store.contains, OrderedMap.contains_iff, withStored, OrderedMap.mem_keys_insert,
    without, OrderedMap.keys_erase, List.mem_filter, ← OrderedMap.contains_iff,
    decide_eq_true_iff, and_comm]
  rfl

theorem contains_delete {s s' : Store} {name n : String} (h : s.delete name = .ok s')
    (hn : s'.contains n = true) : s.contains n = true := by
  rw [delete_ok h, Store.contains, OrderedMap.contains_iff, without, OrderedMap.keys_erase,
    List.mem_filter] at hn
  exact OrderedMap.contains_iff.2 hn.1

theorem update_groups {s : Store} {name : String} {update : Series} {date : InsertionDate}
    {aware : Bool} {answer : Option Series × Store}
    (h : s.update name update date aware = .ok answer) : answer.2.groups = s.groups := by
  rcases update_cases h with heq | ⟨_, _, -, heq⟩
  · rw [heq]
  · rw [heq]
    rfl

theorem rename_groups {s s' : Store} {old new : String} (h : s.rename old new = .ok s') :
    s'.groups = s.groups := by
  obtain ⟨-, stored, -, rfl⟩ := rename_ok h
  rfl

theorem delete_groups {s s' : Store} {name : String} (h : s.delete name = .ok s') :
    s'.groups = s.groups := by
  rw [delete_ok h]
  rfl

theorem containsGroup_updateGroup {s s' : Store} {name : String} {table : Frame}
    {date : InsertionDate} (h : s.updateGroup name table date = .ok s') {n : String}
    (hn : s'.containsGroup n = true) : n = name ∨ s.containsGroup n = true := by
  rw [updateGroup_ok h, containsGroup, OrderedMap.contains_iff, OrderedMap.mem_keys_insert] at hn
  exact hn.imp_right OrderedMap.contains_iff.2

theorem containsGroup_deleteGroup {s s' : Store} {name : String} (h : s.deleteGroup name = .ok s')
    {n : String} (hn : s'.containsGroup n = true) : s.containsGroup n = true := by
  rw [(deleteGroup_ok h).2, containsGroup, OrderedMap.contains_iff, OrderedMap.keys_erase,
    List.mem_filter] at hn
  exact OrderedMap.contains_iff.2 hn.1

/-! ### Stores that are reached -/

theorem Consistent.of_series {s s' : Store} (h : s.Consistent) (hseries : s'.series = s.series) :
    s'.Consistent :=
  ⟨hseries ▸ h.sorted, fun name stored hstored => h.stored name stored (hseries ▸ hstored)⟩

/-- **Every store that is reached is consistent.** -/
theorem Reachable.consistent {s : Store} (h : s.Reachable) : s.Consistent := by
  induction h with
  | empty => exact consistent_empty
  | update _ _ _ _ _ hanswer ih => exact consistent_update ih hanswer
  | rename _ _ _ hs' ih => exact consistent_rename ih hs'
  | delete _ name hs' ih => exact delete_ok hs' ▸ consistent_without ih name
  | updateGroup _ _ _ _ hs' ih => exact ih.of_series (updateGroup_series hs')
  | deleteGroup _ _ hs' ih => exact ih.of_series (deleteGroup_series hs')

/-! ### Changes -/

/-- **A call that may change a store**, with what it is given. -/
inductive Change
  | update (name : String) (update : Series) (date : InsertionDate) (aware : Bool)
  | rename (old new : String)
  | delete (name : String)
  | updateGroup (name : String) (table : Frame) (date : InsertionDate)
  | deleteGroup (name : String)

/-- The store that a call makes, unless it is refused. -/
def perform (s : Store) : Change → Except StoreError Store
  | .update name update date aware => (s.update name update date aware).map (·.2)
  | .rename old new => s.rename old new
  | .delete name => s.delete name
  | .updateGroup name table date => s.updateGroup name table date
  | .deleteGroup name => s.deleteGroup name

/-- The store after a call: a call that is refused leaves it as it is. -/
def after (s : Store) (c : Change) : Store := (s.perform c).toOption.getD s

/-- **The store after a sequence of calls**, from the empty one. -/
def run (changes : List Change) : Store := changes.foldl after .empty

theorem run_concat (changes : List Change) (c : Change) :
    run (changes ++ [c]) = (run changes).after c := by
  rw [run, List.foldl_concat]
  rfl

theorem after_cases (s : Store) (c : Change) : s.after c = s ∨ s.perform c = .ok (s.after c) := by
  unfold after
  cases s.perform c with
  | error e => exact Or.inl rfl
  | ok s' => exact Or.inr rfl

theorem Reachable.perform {s s' : Store} (h : s.Reachable) {c : Change}
    (hs' : s.perform c = .ok s') : s'.Reachable := by
  cases c with
  | update name update date aware =>
    obtain ⟨answer, hanswer, rfl⟩ := Result.map_ok hs'
    exact h.update name update date aware hanswer
  | rename old new => exact h.rename old new hs'
  | delete name => exact h.delete name hs'
  | updateGroup name table date => exact h.updateGroup name table date hs'
  | deleteGroup name => exact h.deleteGroup name hs'

/-- **Every sequence of calls reaches a store.** -/
theorem reachable_run (changes : List Change) : (run changes).Reachable := by
  induction changes using List.reverseRecOn with
  | nil => exact .empty
  | append_singleton changes c ih =>
    rw [run_concat]
    rcases (run changes).after_cases c with heq | hs'
    · rw [heq]
      exact ih
    · exact ih.perform hs'

end Store

end SeriesAlgebra
