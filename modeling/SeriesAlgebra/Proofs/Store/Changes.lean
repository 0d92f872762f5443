import SeriesAlgebra.Proofs.Store.Updates
import Mathlib.Data.List.Chain

/-!
# What is kept of a series

Whatever calls are made (`Store.run`), every series that is stored has a first version that
is not empty, and versions that carry its name, have their points in order and no missing
value, and each differ from the one before (`StoredSeries.IsKept`). It is aware of time
zones if the update that made its first version said so (`Store.StartsAs`), whatever was
updated and renamed since.

Both are told from where a stored series comes from in one call (`Store.ComesFrom`): it was
there, or has one version more, or had another name.
-/

namespace SeriesAlgebra

/-- **What every version of a series of a name is**: it carries the name, and has its points in
order, as many values as stamps and none missing. -/
structure Series.IsVersion (s : Series) (name : String) : Prop where
  named : s.name = name
  sorted : s.IsSorted
  sized : s.index.size = s.values.length
  present : ∀ x ∈ s.values, x.isNaN = false

/-- **What is kept of a series of a name.** -/
structure StoredSeries.IsKept (stored : StoredSeries) (name : String) : Prop where
  /-- The versions are in the order of their insertion dates. -/
  dated : stored.versions.IsSorted
  /-- There is a first version, and it is not empty. -/
  first : ∃ version, stored.versions.values.head? = some version ∧ version.isEmpty = false
  versions : ∀ version ∈ stored.versions.values, version.IsVersion name
  /-- Each version differs from the one before. -/
  changing : stored.versions.values.IsChain fun version next => version.samePoints next = false

namespace Store

variable {s : Store} {name : String} {update : Series} {date : InsertionDate} {aware : Bool}
  {stored : StoredSeries}

/-! ### Versions that differ -/

/-- The last of several changes says what there is at its stamp. -/
theorem valueOn_revised_concat (news : List (Stamp × Float)) (t : Stamp) (x : Float) :
    (s.revised name (news ++ [(t, x)])).valueOn t = x := by
  have hat : (s.revised name (news ++ [(t, x)])).at? t =
      afterChange (some x) ((applyEffect ⟨(s.latest name).points⟩ news).find? t) := by
    change (applyEffect _ (news ++ [(t, x)])).find? t = _
    rw [applyEffect_append, find?_applyEffect_singleton, if_pos rfl]
  rw [Series.valueOn, hat, getD_afterChange]

theorem isSorted_revised (h : s.Consistent) (name : String) (news : List (Stamp × Float)) :
    (s.revised name news).IsSorted :=
  Series.isSorted_of_ofPoints? (ofPoints?_revised h name news)

/-- **A version that an update makes differs from the one before**, whatever the order of what the
update says. -/
theorem samePoints_revised (h : s.Consistent)
    (hnews : (s.latest name).newsOf update ≠ []) :
    (s.latest name).samePoints (s.revised name ((s.latest name).newsOf update)) = false := by
  obtain ⟨earlier, ⟨t, x⟩, hlast⟩ := (List.eq_nil_or_concat _).resolve_left hnews
  rw [List.concat_eq_append] at hlast
  by_contra hsame
  rw [Bool.not_eq_false,
    Series.samePoints_iff (isStored_latest h name).sorted (isSorted_revised h name _)] at hsame
  have hvalue := hsame.2 t
  rw [hlast, valueOn_revised_concat] at hvalue
  -- The last change is none, although it is one of those that the latest version does not say.
  have hmem : (t, x) ∈ (s.latest name).newsOf update := by
    rw [hlast]
    exact List.mem_append_right _ (List.mem_singleton.2 rfl)
  have hunknown := (List.mem_filter.1 hmem).2
  rw [← Series.changes_eq_not_knows (isStored_latest h name).present, Series.changes_eq, hvalue]
    at hunknown
  cases hunknown

/-! ### Where a stored series comes from -/

/-- **Where a series of a name comes from** in one call. -/
inductive ComesFrom (s : Store) (name : String) : Change → StoredSeries → Prop
  /-- It was there. -/
  | kept {stored : StoredSeries} (c : Change) (h : s.series.find? name = some stored) :
      ComesFrom s name c stored
  /-- An update has made one version more, if not the first. -/
  | revised {update : Series} {date : InsertionDate} {aware : Bool}
      (hdate : ¬ s.HasVersionFrom name date) (hnews : (s.latest name).newsOf update ≠ []) :
      ComesFrom s name (.update name update date aware)
        ((s.updated name aware).withVersion date (s.revised name ((s.latest name).newsOf update)))
  /-- It had another name, and its name was free. -/
  | renamed {old : String} {stored : StoredSeries} (habsent : s.series.find? name = none)
      (h : s.series.find? old = some stored) :
      ComesFrom s name (.rename old name) (stored.withName name)

theorem comesFrom_update (h : s.Consistent) {n : String}
    {s' : Store} (hs' : s.perform (.update n update date aware) = .ok s')
    (hstored : s'.series.find? name = some stored) :
    ComesFrom s name (.update n update date aware) stored := by
  obtain ⟨answer, hanswer, rfl⟩ := Result.map_ok hs'
  rw [update_eq h] at hanswer
  split at hanswer
  · cases hanswer
  · rename_i hdate
    rw [isStale_iff (isSorted_versions h n)] at hdate
    split at hanswer
    · obtain rfl := Except.ok.inj hanswer
      exact .kept _ hstored
    · rename_i hnews
      obtain rfl := Except.ok.inj hanswer
      by_cases hn : name = n
      · subst hn
        obtain rfl := Option.some.inj ((OrderedMap.find?_insert_self ..).symm.trans hstored)
        exact .revised hdate fun hnil => hnews (List.isEmpty_iff.2 hnil)
      · exact .kept _ ((OrderedMap.find?_insert_of_ne _ hn _).symm.trans hstored)

theorem comesFrom_rename {old new : String} {s' : Store} (hs' : s.rename old new = .ok s')
    (hstored : s'.series.find? name = some stored) :
    ComesFrom s name (.rename old new) stored := by
  obtain ⟨hfree, found, hfound, rfl⟩ := rename_ok hs'
  by_cases hn : name = new
  · subst hn
    obtain rfl := Option.some.inj ((OrderedMap.find?_insert_self ..).symm.trans hstored)
    exact .renamed (contains_eq_false_iff.1 hfree) hfound
  · have herased := (OrderedMap.find?_insert_of_ne _ hn _).symm.trans hstored
    exact .kept _ (OrderedMap.find?_of_erase herased)

/-- **In one call** a stored series comes from what was there. -/
theorem comesFrom_after (h : s.Consistent) {c : Change}
    (hstored : (s.after c).series.find? name = some stored) : ComesFrom s name c stored := by
  rcases s.after_cases c with heq | hs'
  · rw [heq] at hstored
    exact .kept c hstored
  · cases c with
    | update n update date aware => exact comesFrom_update h hs' hstored
    | rename old new => exact comesFrom_rename hs' hstored
    | delete n =>
      rw [delete_ok hs'] at hstored
      exact .kept _ (OrderedMap.find?_of_erase hstored)
    | updateGroup n table date => exact .kept _ (updateGroup_series hs' ▸ hstored)
    | deleteGroup n => exact .kept _ (deleteGroup_series hs' ▸ hstored)

/-! ### What is kept -/

/-- A version that an update makes comes after those that were there. -/
theorem entries_withVersion (h : ¬ s.HasVersionFrom name date) (version : Series) :
    ((s.updated name aware).withVersion date version).versions.entries =
      (s.versions name).entries ++ [(date, version)] := by
  rw [StoredSeries.withVersion, versions_updated]
  refine OrderedMap.entries_insert_of_last (fun d hd => ?_) version
  by_contra hlt
  exact h ⟨d, hd, Stamp.not_lt.1 hlt⟩

theorem isVersion_revised (h : s.Consistent) (name : String) (news : List (Stamp × Float)) :
    (s.revised name news).IsVersion name := by
  have hsorted : OrderedMap.IsSorted ⟨(s.latest name).points⟩ := (isStored_latest h name).sorted
  have hpoints := arePoints_applyEffect ⟨hsorted, (isStored_latest h name).present⟩ news
  constructor
  · rfl
  · exact hpoints.1
  · exact (List.length_map _).trans (List.length_map _).symm
  · exact List.forall_mem_map.2 hpoints.2

/-- **A version more** keeps what is kept. -/
theorem isKept_revised (hs : s.Consistent)
    (h : ∀ stored, s.series.find? name = some stored → stored.IsKept name)
    (hdate : ¬ s.HasVersionFrom name date) (hnews : (s.latest name).newsOf update ≠ []) :
    ((s.updated name aware).withVersion date
      (s.revised name ((s.latest name).newsOf update))).IsKept name := by
  have hdiffers := samePoints_revised hs hnews
  have hversion := isVersion_revised hs name ((s.latest name).newsOf update)
  generalize s.revised name ((s.latest name).newsOf update) = revised at hdiffers hversion
  have hdated := OrderedMap.isSorted_insert (isConsistent_updated hs name aware).sorted date revised
  have hvalues : ((s.updated name aware).withVersion date revised).versions.values =
      (s.versions name).values ++ [revised] := by
    rw [OrderedMap.values, entries_withVersion hdate, List.map_append]
    rfl
  cases hfind : s.series.find? name with
  | none =>
    have hlatest : s.latest name = .empty name := by
      rw [latest, latest?, versions_of_none hfind]
      rfl
    rw [versions_of_none hfind] at hvalues
    rw [hlatest] at hdiffers
    -- A first version differs from the series without points, so it has some.
    refine ⟨hdated, ⟨revised, by rw [hvalues]; rfl, ?_⟩, ?_, ?_⟩
    · by_contra hempty
      rw [Bool.not_eq_false] at hempty
      rw [Series.samePoints_of_eq (List.isEmpty_iff.1 hempty).symm] at hdiffers
      cases hdiffers
    · rw [hvalues]
      exact List.forall_mem_singleton.2 hversion
    · rw [hvalues]
      exact .singleton _
  | some stored =>
    have hkept := h stored hfind
    obtain ⟨first, hfirst, hpoints⟩ := hkept.first
    rw [versions_of_some hfind] at hvalues
    refine ⟨hdated, ⟨first, by rw [hvalues, List.head?_append, hfirst]; rfl, hpoints⟩, ?_, ?_⟩
    · rw [hvalues, List.forall_mem_append]
      exact ⟨hkept.versions, List.forall_mem_singleton.2 hversion⟩
    · rw [hvalues, List.isChain_append]
      refine ⟨hkept.changing, .singleton _, fun last hlast next hnext => ?_⟩
      have hlatest : s.latest name = last := by
        rw [latest, latest?, versions_of_some hfind, OrderedMap.last?, ← List.getLast?_map]
        exact congrArg (·.getD (.empty name)) hlast
      obtain rfl := Option.some.inj hnext
      exact hlatest ▸ hdiffers

/-- Another name keeps what is kept. -/
theorem isKept_withName (h : stored.IsKept name) (new : String) :
    (stored.withName new).IsKept new := by
  have hvalues : (stored.withName new).versions.values =
      stored.versions.values.map fun version => version.withName new := by
    simp only [StoredSeries.withName, OrderedMap.values, OrderedMap.mapValues, List.map_map]
    rfl
  obtain ⟨first, hfirst, hpoints⟩ := h.first
  refine ⟨OrderedMap.isSorted_mapValues h.dated _,
    ⟨first.withName new, by rw [hvalues, List.head?_map, hfirst]; rfl, hpoints⟩, ?_, ?_⟩
  · rw [hvalues]
    exact List.forall_mem_map.2 fun version hversion =>
      have hversion := h.versions version hversion
      ⟨rfl, hversion.sorted, hversion.sized, hversion.present⟩
  · rw [hvalues, List.isChain_map]
    exact h.changing

/-- A series after a call comes from the store before it. -/
theorem comesFrom_run {before : List Change} {c : Change}
    (h : (run (before ++ [c])).series.find? name = some stored) :
    ComesFrom (run before) name c stored :=
  comesFrom_after (reachable_run before).consistent (run_concat before c ▸ h)

/-- **What is kept is kept by every call.** -/
theorem isKept_of_comesFrom (hs : s.Consistent) {c : Change}
    (h : ∀ n st, s.series.find? n = some st → st.IsKept n) (hfrom : ComesFrom s name c stored) :
    stored.IsKept name := by
  cases hfrom with
  | kept _ hstored => exact h name stored hstored
  | revised hdate hnews => exact isKept_revised hs (h name) hdate hnews
  | renamed _ hstored => exact isKept_withName (h _ _ hstored) name

theorem isKept_run (changes : List Change) (name : String) (stored : StoredSeries)
    (h : (run changes).series.find? name = some stored) : stored.IsKept name := by
  -- The last call comes off first: it is told from the store that those before it have made.
  induction changes using List.reverseRecOn generalizing name stored with
  | nil => cases h
  | append_singleton changes c ih =>
    exact isKept_of_comesFrom (reachable_run changes).consistent ih (comesFrom_run h)

/-! ### The update that made the first version -/

/-- **Whether the first version of a series was made by an update** at a date and aware of time
zones or not, in a sequence of calls: the name was free before the update, and since then the
series was never gone, if under another name. -/
inductive StartsAs (date : InsertionDate) (aware : Bool) : List Change → String → Prop
  | created {before : List Change} {name : String} {update : Series}
      (habsent : (run before).contains name = false)
      (hpresent : (run (before ++ [.update name update date aware])).contains name = true) :
      StartsAs date aware (before ++ [.update name update date aware]) name
  | kept {before : List Change} {name : String} {c : Change} (h : StartsAs date aware before name)
      (hpresent : (run (before ++ [c])).contains name = true) :
      StartsAs date aware (before ++ [c]) name
  | renamed {before : List Change} {old new : String} (h : StartsAs date aware before old)
      (habsent : (run before).contains new = false)
      (hpresent : (run (before ++ [.rename old new])).contains new = true) :
      StartsAs date aware (before ++ [.rename old new]) new

/-- **What a stored series says of its start**: the date of its first version, and its awareness of
time zones. -/
def startOf (stored : StoredSeries) : Option InsertionDate × Bool :=
  (stored.versions.keys.head?, stored.aware)

theorem startOf_withName (stored : StoredSeries) (name : String) :
    startOf (stored.withName name) = startOf stored := by
  rw [startOf, StoredSeries.withName, OrderedMap.keys_mapValues]
  rfl

/-- The first version says how a series starts. -/
theorem startOf_first (h : s.series.find? name = none) (hdate : ¬ s.HasVersionFrom name date)
    (version : Series) :
    startOf ((s.updated name aware).withVersion date version) = (some date, aware) := by
  rw [startOf, OrderedMap.keys, entries_withVersion hdate, versions_of_none h,
    StoredSeries.withVersion, updated_of_none h]
  rfl

/-- A later version says nothing of it. -/
theorem startOf_later (h : s.series.find? name = some stored) (hkept : stored.IsKept name)
    (hdate : ¬ s.HasVersionFrom name date) (version : Series) :
    startOf ((s.updated name aware).withVersion date version) = startOf stored := by
  obtain ⟨first, hfirst, -⟩ := hkept.first
  obtain ⟨entry, hentry, -⟩ := Option.map_eq_some_iff.1 (List.head?_map.symm.trans hfirst)
  rw [startOf, startOf, OrderedMap.keys, OrderedMap.keys, entries_withVersion hdate,
    versions_of_some h, StoredSeries.withVersion, updated_of_some h, List.map_append,
    List.head?_append, List.head?_map, hentry]
  rfl

/-- A series that starts with an update is there and says so. -/
theorem StartsAs.exists_stored {changes : List Change} (h : StartsAs date aware changes name) :
    ∃ stored, (run changes).series.find? name = some stored ∧
      startOf stored = (some date, aware) := by
  induction h with
  | created habsent hpresent =>
    obtain ⟨stored, hstored⟩ := Option.isSome_iff_exists.1 hpresent
    refine ⟨stored, hstored, ?_⟩
    cases comesFrom_run hstored with
    | kept _ h => cases (contains_eq_false_iff.1 habsent).symm.trans h
    | revised hdate _ => exact startOf_first (contains_eq_false_iff.1 habsent) hdate _
  | kept _ hpresent ih =>
    obtain ⟨old, hold, hstart⟩ := ih
    obtain ⟨stored, hstored⟩ := Option.isSome_iff_exists.1 hpresent
    refine ⟨stored, hstored, hstart ▸ ?_⟩
    cases comesFrom_run hstored with
    | kept _ h => rw [Option.some.inj (hold.symm.trans h)]
    | revised hdate _ => exact startOf_later hold (isKept_run _ _ _ hold) hdate _
    | renamed habsent _ => cases habsent.symm.trans hold
  | renamed _ habsent hpresent ih =>
    obtain ⟨old, hold, hstart⟩ := ih
    obtain ⟨stored, hstored⟩ := Option.isSome_iff_exists.1 hpresent
    refine ⟨stored, hstored, hstart ▸ ?_⟩
    cases comesFrom_run hstored with
    | kept _ h => cases (contains_eq_false_iff.1 habsent).symm.trans h
    | renamed _ h => rw [startOf_withName, Option.some.inj (hold.symm.trans h)]

/-- Every stored series starts with an update. -/
theorem exists_startsAs {changes : List Change}
    (h : (run changes).series.find? name = some stored) :
    ∃ date aware, startOf stored = (some date, aware) ∧ StartsAs date aware changes name := by
  induction changes using List.reverseRecOn generalizing name stored with
  | nil => cases h
  | append_singleton changes c ih =>
    have hpresent : (run (changes ++ [c])).contains name = true :=
      Option.isSome_iff_exists.2 ⟨stored, h⟩
    cases comesFrom_run h with
    | kept _ hstored =>
      obtain ⟨date, aware, hstart, hstarts⟩ := ih hstored
      exact ⟨date, aware, hstart, .kept hstarts hpresent⟩
    | @revised _ date aware hdate _ =>
      cases hfind : (run changes).series.find? name with
      | none =>
        exact ⟨date, aware, startOf_first hfind hdate _,
          .created (contains_eq_false_iff.2 hfind) hpresent⟩
      | some old =>
        obtain ⟨date', aware', hstart, hstarts⟩ := ih hfind
        rw [← startOf_later hfind (isKept_run _ _ _ hfind) hdate] at hstart
        exact ⟨date', aware', hstart, .kept hstarts hpresent⟩
    | renamed hfree hfound =>
      obtain ⟨date, aware, hstart, hstarts⟩ := ih hfound
      exact ⟨date, aware, (startOf_withName _ _).trans hstart,
        .renamed hstarts (contains_eq_false_iff.2 hfree) hpresent⟩

/-! ### After every sequence of calls -/

/-- **What holds of every stored series**, whatever calls were made. It has a first version that is
not empty, all its versions carry its name, have their points in order and no value missing, and
each differs from the one before. Its awareness of time zones is that of the update that made its
first version. -/
theorem stored_of_run {changes : List Change} {name : String} {stored : StoredSeries}
    (h : (run changes).series.find? name = some stored) :
    stored.IsKept name ∧ ∃ first, stored.versions.keys.head? = some first ∧
      ∀ date aware, StartsAs date aware changes name ↔ date = first ∧ aware = stored.aware := by
  obtain ⟨first, told, hstart, hstarts⟩ := exists_startsAs h
  obtain ⟨hfirst, rfl⟩ := Prod.mk.inj hstart
  refine ⟨isKept_run changes name stored h, first, hfirst, fun date aware => ⟨fun h' => ?_, ?_⟩⟩
  · -- All updates with which the series starts are told from what it says of its start.
    obtain ⟨found, hfound, hsays⟩ := h'.exists_stored
    obtain rfl := Option.some.inj (h.symm.trans hfound)
    obtain ⟨hdate, haware⟩ := Prod.mk.inj (hstart.symm.trans hsays)
    exact ⟨(Option.some.inj hdate).symm, haware.symm⟩
  · rintro ⟨rfl, rfl⟩
    exact hstarts

/-- A series whose second version erases a point, under a new name, and an update in vain. -/
def renamedAfterErasure : List Change :=
  [.update "x" firstPoints (updateDay 1) true, .update "x" correctedPoints (updateDay 2) false,
    .rename "x" "y", .update "y" correctedPoints (updateDay 3) false,
    .update "y" firstPoints (updateDay 1) false]

theorem stored_renamedAfterErasure : ∃ stored,
    (run renamedAfterErasure).series.find? "y" = some stored ∧ stored.versions.size = 2 ∧
      stored.aware = true ∧ stored.IsKept "y" ∧
      StartsAs (updateDay 1) true renamedAfterErasure "y" := by
  have hfound : ((run renamedAfterErasure).series.find? "y").any (fun stored =>
      stored.versions.size = 2 ∧ stored.aware = true ∧
        stored.versions.keys.head? = some (updateDay 1)) = true := by
    decide +kernel
  obtain ⟨stored, hstored, hsays⟩ := (Option.any_eq_true _ _).1 hfound
  obtain ⟨hsize, haware, hhead⟩ := of_decide_eq_true hsays
  obtain ⟨hkept, first, hfirst, hstarts⟩ := stored_of_run hstored
  obtain rfl := Option.some.inj (hhead.symm.trans hfirst)
  exact ⟨stored, hstored, hsize, haware, hkept, (hstarts _ _).2 ⟨rfl, haware.symm⟩⟩

end Store

end SeriesAlgebra
