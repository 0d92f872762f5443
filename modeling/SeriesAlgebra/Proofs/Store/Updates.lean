import SeriesAlgebra.Proofs.Series.History
import SeriesAlgebra.Proofs.Store.Deltas
import SeriesAlgebra.Proofs.Store.Reachable

/-!
# What an update does

An update of a series is refused if a version of it is dated at the insertion date or
after it (`Store.HasVersionFrom`). If not, what matters are the points that the latest
version does not say already (`Series.knows`): if there are none, nothing changes. If there
are some, they are the effect, and the store has one version more (`Store.GainsVersion`),
which says what the effect says where it has a point and what the latest version said
elsewhere.

`Store.update_eq` tells the whole of an update in a store that is reached, with no
failure but the refusal, and `Store.update_iff` what this means point by point.
-/

namespace SeriesAlgebra

namespace Series

/-- **Whether a series says a point already**: where it has none, the point is missing, and where
it has one, the values are equal. -/
def knows (s : Series) (p : Stamp × Float) : Bool :=
  match s.at? p.1 with
  | some x => p.2 == x
  | none => p.2.isNaN

/-- The points that a series does not say already. -/
def newsOf (s update : Series) : List (Stamp × Float) := update.points.filter fun p => !s.knows p

/-- A change of a series without missing values is what it does not say already. -/
theorem changes_eq_not_knows {s : Series} (h : ∀ p ∈ s.points, p.2.isNaN = false)
    (p : Stamp × Float) : s.changes p = !s.knows p := by
  obtain ⟨t, x⟩ := p
  rw [changes_eq, sameValue_comm, valueOn]
  refine congrArg not ?_
  unfold knows
  dsimp only
  cases hat : s.at? t with
  | none => rw [Option.getD_none, sameValue_comm, sameValue_missing]
  | some old =>
    have hold : old.isNaN = false := h (t, old) (OrderedMap.mem_of_lookup hat)
    rw [Option.getD_some, sameValue, hold, Bool.and_false, Bool.false_or]

end Series

namespace Store

variable {s : Store} {name : String} {update : Series} {date : InsertionDate} {aware : Bool}

/-! ### Versions of a series -/

/-- The versions of a series, none if there is no such series. -/
def versions (s : Store) (name : String) : History :=
  ((s.series.find? name).map (·.versions)).getD .empty

/-- The latest version of a series, if there is one. -/
def latest? (s : Store) (name : String) : Option Series := (s.versions name).last?.map (·.2)

/-- The latest version of a series, empty if there is none. -/
def latest (s : Store) (name : String) : Series := (s.latest? name).getD (.empty name)

/-- **Whether a series has a version at a date or after it.** -/
def HasVersionFrom (s : Store) (name : String) (date : InsertionDate) : Prop :=
  ∃ d ∈ (s.versions name).keys, date ≤ d

instance : Decidable (s.HasVersionFrom name date) :=
  inferInstanceAs (Decidable (∃ d ∈ (s.versions name).keys, date ≤ d))

/-- **A store with one version more**: a version of one series at one date, and nothing else is new.
The series keeps its awareness of time zones if it was there. -/
structure GainsVersion (s s' : Store) (name : String) (date : InsertionDate) (aware : Bool)
    (version : Series) : Prop where
  absent : (s.versions name).find? date = none
  added : (s'.versions name).find? date = some version
  others : ∀ d, d ≠ date → (s'.versions name).find? d = (s.versions name).find? d
  aware : s'.aware? name = some ((s.aware? name).getD aware)
  series : ∀ n, n ≠ name → s'.series.find? n = s.series.find? n
  groups : s'.groups = s.groups

theorem versions_of_some {stored : StoredSeries} (h : s.series.find? name = some stored) :
    s.versions name = stored.versions := by
  rw [versions, h, Option.map_some, Option.getD_some]

theorem versions_of_none (h : s.series.find? name = none) : s.versions name = .empty := by
  rw [versions, h, Option.map_none, Option.getD_none]

theorem versions_updated (s : Store) (name : String) (aware : Bool) :
    (s.updated name aware).versions = s.versions name := by
  unfold updated versions
  cases s.series.find? name <;> rfl

theorem aware_updated (s : Store) (name : String) (aware : Bool) :
    (s.updated name aware).aware = (s.aware? name).getD aware := by
  unfold updated aware?
  cases s.series.find? name <;> rfl

theorem isSorted_versions (h : s.Consistent) (name : String) : (s.versions name).IsSorted :=
  versions_updated s name true ▸ (isConsistent_updated h name true).sorted

theorem isStored_of_latest? (h : s.Consistent) (name : String) :
    ∀ version ∈ s.latest? name, version.IsStored := by
  have hlast := last?_isStored (isConsistent_updated h name true)
  rw [versions_updated] at hlast
  exact hlast

theorem isStored_latest (h : s.Consistent) (name : String) : (s.latest name).IsStored := by
  unfold latest
  cases hlatest : s.latest? name with
  | none => exact ⟨.nil, nofun, rfl⟩
  | some version => exact isStored_of_latest? h name version hlatest

/-! ### The parts of an update -/

/-- **An insertion date is refused** if there is a date that is not before it. -/
theorem isStale_iff {α : Type} {versions : OrderedMap InsertionDate α} (h : versions.IsSorted) :
    isStale versions date = true ↔ ∃ d ∈ versions.keys, date ≤ d := by
  unfold isStale
  cases hlast : versions.last? with
  | none =>
    have hkeys : versions.keys = [] := by
      rw [OrderedMap.keys, List.getLast?_eq_none_iff.1 hlast, List.map_nil]
    rw [hkeys]
    refine iff_of_false Bool.false_ne_true ?_
    rintro ⟨d, hd, -⟩
    cases hd
  | some last =>
    have hmem : last.1 ∈ versions.keys := List.mem_map_of_mem (List.mem_of_getLast? hlast)
    have hgreatest := (History.last_of_filter h (p := fun _ => true)
      ((congrArg List.getLast? (List.filter_true _)).trans hlast)).2.2
    rw [Option.any_some, decide_eq_true_iff]
    constructor
    · exact fun hle => ⟨last.1, hmem, hle⟩
    · rintro ⟨d, hd, hle⟩
      obtain ⟨entry, hentry, rfl⟩ := List.mem_map.1 hd
      exact Stamp.le_trans hle (hgreatest entry hentry rfl)

/-- **The effect of an update** has the points that the latest version does not say already. -/
theorem points_effect (h : s.Consistent) (name : String) (update : Series) :
    (effect (s.latest? name) update).points = (s.latest name).newsOf update := by
  unfold latest
  cases hlatest : s.latest? name with
  | none => rfl
  | some version =>
    have hpresent := (isStored_of_latest? h name version hlatest).present
    exact List.filter_congr fun p _ => Series.changes_eq_not_knows hpresent p

/-- The version that an update makes, from the points of its effect. -/
def revised (s : Store) (name : String) (news : List (Stamp × Float)) : Series :=
  .ofPoints name (applyEffect ⟨(s.latest name).points⟩ news).entries

/-- **What a version says after an update.** -/
theorem at?_revised {news : List (Stamp × Float)} (h : (news.map (·.1)).Pairwise (· < ·))
    (t : Stamp) :
    (s.revised name news).at? t = afterChange (news.lookup t) ((s.latest name).at? t) :=
  find?_applyEffect h ⟨(s.latest name).points⟩ t

theorem ofPoints?_revised (h : s.Consistent) (name : String) (news : List (Stamp × Float)) :
    Series.ofPoints? name (applyEffect (currentPoints (s.latest? name)) news).entries =
      .ok (s.revised name news) := by
  have hcurrent : currentPoints (s.latest? name) = ⟨(s.latest name).points⟩ := by
    unfold currentPoints latest
    cases s.latest? name <;> rfl
  have hsorted : OrderedMap.IsSorted ⟨(s.latest name).points⟩ := (isStored_latest h name).sorted
  rw [hcurrent]
  exact Series.ofPoints?_ok_iff.2 ⟨isSorted_applyEffect hsorted news, rfl⟩

/-- **An update as a whole**: refused for its date, or without effect, or a version more. -/
theorem update_eq (h : s.Consistent) (name : String) (update : Series) (date : InsertionDate)
    (aware : Bool) : s.update name update date aware =
      if isStale (s.versions name) date then .error (.staleInsertion name date)
      else if ((s.latest name).newsOf update).isEmpty then .ok (none, s)
      else .ok (some ((effect (s.latest? name) update).withName name),
        s.withStored name ((s.updated name aware).withVersion date
          (s.revised name ((s.latest name).newsOf update)))) := by
  have hstored : (s.series.find? name).getD ⟨aware, .empty⟩ = s.updated name aware := rfl
  have hpoints : ((effect (s.latest? name) update).withName name).points =
      (s.latest name).newsOf update := points_effect h name update
  unfold Store.update
  simp only [hstored, versions_updated]
  rw [show (s.versions name).last?.map (·.2) = s.latest? name from rfl]
  split
  · rfl
  · change (if ((effect (s.latest? name) update).withName name).points.isEmpty then _ else _) = _
    rw [hpoints, ofPoints?_revised h]
    split
    · rfl
    · change Except.ok _ = Except.ok _
      rw [withStored, StoredSeries.withVersion, versions_updated]

/-! ### What an update does -/

theorem isSorted_newsOf (h : update.IsSorted) (current : Series) :
    ((current.newsOf update).map (·.1)).Pairwise (· < ·) :=
  List.Pairwise.sublist (List.filter_sublist.map _) h

theorem newsOf_isEmpty_iff (current update : Series) : (current.newsOf update).isEmpty = true ↔
    ∀ p ∈ update.points, current.knows p = true := by
  rw [List.isEmpty_iff, Series.newsOf, List.filter_eq_nil_iff]
  refine forall₂_congr fun p _ => ?_
  rw [Bool.not_eq_true', Bool.not_eq_false]

/-- A version after all others is one more. -/
theorem gainsVersion_withVersion (h : ¬ s.HasVersionFrom name date) (aware : Bool)
    (version : Series) : s.GainsVersion
      (s.withStored name ((s.updated name aware).withVersion date version)) name date aware
        version := by
  have hfind : (s.withStored name ((s.updated name aware).withVersion date version)).series.find?
      name = some ((s.updated name aware).withVersion date version) :=
    OrderedMap.find?_insert_self s.series name _
  have hversions : (s.withStored name ((s.updated name aware).withVersion date version)).versions
      name = (s.versions name).insert date version := by
    rw [versions_of_some hfind, StoredSeries.withVersion, versions_updated]
  constructor
  · exact OrderedMap.find?_eq_none_iff.2 fun hmem => h ⟨date, hmem, Stamp.le_refl date⟩
  · rw [hversions, OrderedMap.find?_insert_self]
  · intro d hd
    rw [hversions, OrderedMap.find?_insert_of_ne _ hd]
  · rw [aware?, hfind, ← aware_updated]
    rfl
  · exact fun n hn => OrderedMap.find?_insert_of_ne _ hn _
  · rfl

/-- **What an update does** in a store that is reached. It is refused if the series has a version at
the date or after it, and for nothing else. It changes nothing if the latest version says all of
its points already. Otherwise the effect has the points that it does not say, and there is one
version more: at each stamp it has what the effect has there, erased where that is missing, and
what the latest version has where the effect has no point. -/
theorem update_iff (h : s.Reachable) (hupdate : update.IsSorted) (name : String)
    (date : InsertionDate) (aware : Bool) :
    (∀ e, s.update name update date aware = .error e ↔
      e = .staleInsertion name date ∧ s.HasVersionFrom name date) ∧
    (∀ s', s.update name update date aware = .ok (none, s') ↔
      s' = s ∧ ¬ s.HasVersionFrom name date ∧
        ∀ p ∈ update.points, (s.latest name).knows p = true) ∧
    (¬ s.HasVersionFrom name date → (∃ p ∈ update.points, (s.latest name).knows p = false) →
      ∃ effect version s', s.update name update date aware = .ok (some effect, s') ∧
        effect.name = name ∧ effect.points = (s.latest name).newsOf update ∧
        version.name = name ∧
        (∀ t, version.at? t = afterChange (effect.at? t) ((s.latest name).at? t)) ∧
        s.GainsVersion s' name date aware version) := by
  have hconsistent := h.consistent
  have hstale : isStale (s.versions name) date = true ↔ s.HasVersionFrom name date :=
    isStale_iff (isSorted_versions hconsistent name)
  have hempty := newsOf_isEmpty_iff (s.latest name) update
  rw [update_eq hconsistent]
  -- The three outcomes exclude each other, so in each case two of the parts are about the others.
  by_cases hfrom : s.HasVersionFrom name date
  · rw [if_pos (hstale.2 hfrom)]
    refine ⟨fun e => ⟨fun he => ⟨(Except.error.inj he).symm, hfrom⟩, fun he => he.1 ▸ rfl⟩,
      fun s' => iff_of_false nofun fun hs' => hs'.2.1 hfrom, fun hnot => absurd hfrom hnot⟩
  · rw [if_neg (mt hstale.1 hfrom)]
    by_cases hknown : ∀ p ∈ update.points, (s.latest name).knows p = true
    · rw [if_pos (hempty.2 hknown)]
      refine ⟨fun e => iff_of_false nofun fun he => hfrom he.2, fun s' => ?_, fun _ hnews => ?_⟩
      · exact ⟨fun hs' => ⟨(Prod.mk.inj (Except.ok.inj hs')).2.symm, hfrom, hknown⟩,
          fun hs' => hs'.1 ▸ rfl⟩
      · obtain ⟨p, hp, hunknown⟩ := hnews
        rw [hknown p hp] at hunknown
        cases hunknown
    · rw [if_neg (mt hempty.1 hknown)]
      refine ⟨fun e => iff_of_false nofun fun he => hfrom he.2,
        fun s' => iff_of_false nofun fun hs' => hknown hs'.2.2, fun _ _ => ?_⟩
      have hpoints := points_effect hconsistent name update
      refine ⟨_, s.revised name ((s.latest name).newsOf update), _, rfl, rfl, hpoints, rfl,
        fun t => ?_, gainsVersion_withVersion hfrom aware _⟩
      rw [at?_revised (isSorted_newsOf hupdate _), ← hpoints]
      rfl

/-- A day of 2024, counted from zero. -/
def updateDay (n : Nat) : Stamp := .within (1704067200 + 86400 * n) 0

/-- Two points. -/
def firstPoints : Series := .ofPoints "x" [(updateDay 0, 1.0), (updateDay 1, 2.0)]

/-- The first of two points again, the second erased, and a third one. -/
def correctedPoints : Series :=
  .ofPoints "x" [(updateDay 0, 1.0), (updateDay 1, missing), (updateDay 2, 3.0)]

/-- The store after the first points. -/
def firstStore : Store := run [.update "x" firstPoints (updateDay 1) false]

theorem update_firstStore : firstStore.Reachable ∧ correctedPoints.IsSorted ∧
    firstStore.update "x" correctedPoints (updateDay 1) false =
      .error (.staleInsertion "x" (updateDay 1)) ∧
    firstStore.update "x" firstPoints (updateDay 2) true = .ok (none, firstStore) ∧
    ∃ effect version s',
      firstStore.update "x" correctedPoints (updateDay 2) true = .ok (some effect, s') ∧
      effect.points = [(updateDay 1, missing), (updateDay 2, 3.0)] ∧
      version.at? (updateDay 0) = some 1.0 ∧ version.at? (updateDay 1) = none ∧
      (s'.versions "x").find? (updateDay 2) = some version ∧ s'.aware? "x" = some false := by
  have hreachable : firstStore.Reachable := reachable_run _
  have hfirst : firstPoints.IsSorted := by unfold Series.IsSorted TimeIndex.IsSorted; decide +kernel
  have hcorrected : correctedPoints.IsSorted := by
    unfold Series.IsSorted TimeIndex.IsSorted
    decide +kernel
  obtain ⟨effect, version, s', hs', -, heffect, -, hversion, hgains⟩ :=
    (update_iff hreachable hcorrected "x" (updateDay 2) true).2.2 (by decide +kernel)
      (by decide +kernel)
  have hpoints : effect.points = [(updateDay 1, missing), (updateDay 2, 3.0)] := by
    rw [heffect]
    decide +kernel
  refine ⟨hreachable, hcorrected,
    ((update_iff hreachable hcorrected "x" (updateDay 1) false).1 _).2 ⟨rfl, by decide +kernel⟩,
    ((update_iff hreachable hfirst "x" (updateDay 2) true).2.1 _).2
      ⟨rfl, by decide +kernel, by decide +kernel⟩,
    effect, version, s', hs', hpoints, ?_, ?_, hgains.added, hgains.aware.trans (by decide +kernel)⟩
  · rw [hversion, Series.at?, hpoints]
    decide +kernel
  · rw [hversion, Series.at?, hpoints]
    decide +kernel

end Store

end SeriesAlgebra
