import SeriesAlgebra.Proofs.Engine.Relabeling.Staircases
import SeriesAlgebra.Proofs.Evaluation.Pointwise
import SeriesAlgebra.Proofs.Series.Staircase

/-!
# Two ways to a staircase

The staircase of a pointwise formula can be assembled from the staircases of its leaves or
taken from its whole history. At a stamp both come down to the versions that were in effect
a delay before (`Engine.valueOn_assembled`), so the one from the history is the assembled one
without its missing values (`Engine.replayed_eq_assembled`). Nothing drops these when a
staircase is assembled, so the two need not have the same points
(`Engine.replayed_ne_assembled`).
-/

namespace SeriesAlgebra

open Evaluation Reading Value Series

namespace Engine

open SeriesAlgebra.Tree

variable {e : Engine} {name : String} {u : Tree} {delay : Span} {window : Window} {t : Stamp}
  {A : Resolver Memo}

/-- The engine with or without fast staircases. -/
def withFastStaircase (e : Engine) (allowed : Bool) : Engine :=
  { e with config := { e.config with fastStaircase := allowed } }

theorem Consistent.withFastStaircase (he : e.Consistent) (allowed : Bool) :
    (e.withFastStaircase allowed).Consistent :=
  ⟨he.registry, he.sources, he.store, he.formulas, { he.names with }⟩

/-! ### Staircases of stored series -/

/-- The staircase of a stored series is that of its versions. -/
theorem isStaircase_stored (he : e.Consistent) (hnone : e.formulaTree? name = .ok none)
    {stored : StoredSeries} (hstored : e.store.series.find? name = some stored)
    (hdelay : delay.KeepsOrder (· ∈ stored.versions.keys)) {s : Series}
    (hs : e.replayStaircase name delay window = .ok (some s)) :
    History.IsStaircase stored.versions delay window s := by
  have hconsistent := he.store.stored name stored hstored
  have hversions (version : Series) (hversion : version ∈ stored.versions.values) :
      version.IsSorted := by
    obtain ⟨date, hfind⟩ := (OrderedMap.mem_values_iff hconsistent.sorted).1 hversion
    exact (hconsistent.versions date version hfind).sorted
  obtain ⟨hist, hhist, hs⟩ := Result.bind_ok hs
  unfold history replayLevels at hhist
  rw [historyWithin_stored he hnone] at hhist
  unfold Store.history? at hhist
  rw [hstored] at hhist
  have hall : (stored.versions.filter fun date _ => Window.unbounded.contains date) =
      stored.versions := congrArg OrderedMap.mk (List.filter_eq_self.2 fun _ _ => rfl)
  obtain rfl := Except.ok.inj hhist
  obtain ⟨s', hs', hsome⟩ := Result.bind_ok hs
  obtain rfl := Option.some.inj (Except.ok.inj hsome)
  have hs' := Result.mapError_ok hs'
  change History.staircase ((stored.versions.filter fun date _ =>
    Window.unbounded.contains date).mapValues fun _ version => version.window window)
      name delay window = .ok s' at hs'
  rw [hall] at hs'
  refine History.IsStaircase.of_windowed hversions
    (History.isStaircase (OrderedMap.isSorted_mapValues hconsistent.sorted _) ?_ ?_ hs')
  · intro version hversion
    obtain ⟨entry, hentry, rfl⟩ := List.mem_map.1 hversion
    obtain ⟨original, horiginal, rfl⟩ := List.mem_map.1 hentry
    exact isSorted_window (hversions _ (List.mem_map_of_mem horiginal)) window
  · rw [OrderedMap.keys_mapValues]
    exact hdelay

/-- **Whether a map has the staircases** of the leaves of a formula. -/
def KnowsStairs (e : Engine) (u : Tree) (delay : Span) (window : Window)
    (stairs : OrderedMap String Series) : Prop :=
  ∀ items leaf, list items ∈ u.nodes → leafName? items = some leaf →
    ∃ stored s, e.store.series.find? leaf = some stored ∧ stairs.find? leaf = some s ∧
      History.IsStaircase stored.versions delay window s

theorem knowsStairs (he : e.Consistent) (hu : e.IsExpanded u)
    (hdelay : delay.KeepsOrder (e.HasVersionAt u)) {levels : Nat} {stairs : List (String × Series)}
    (hstairs : (u.seriesReferences .builtin).mapM
      (stairEntry (e.staircaseWithin delay window levels)) = .ok stairs) :
    e.KnowsStairs u delay window (.ofList stairs) := by
  have hentries := Result.forall₂_of_mapM hstairs
  intro items leaf hitems hleaf
  have hreference : leaf ∈ u.seriesReferences .builtin :=
    mem_sortedSet.2 (mem_references hu.isFormula hitems hleaf)
  obtain ⟨entry, hentry, hstair⟩ := Result.exists_of_mem_left hentries hreference
  have hkey : leaf ∈ stairs.map (·.1) := (stairEntry_ok hstair).1 ▸ List.mem_map_of_mem hentry
  obtain ⟨s, hs⟩ := OrderedMap.exists_find?_ofList hkey
  -- the entry that is found is one of the leaf as well
  obtain ⟨other, -, hother⟩ := Result.exists_of_mem_right hentries
    (OrderedMap.mem_ofList (OrderedMap.mem_of_find? hs))
  obtain ⟨rfl, hstair⟩ := stairEntry_ok hother
  have hnone := (hu.nodes _ hitems).leaf items _ rfl hleaf
  cases levels with
  | zero => cases hstair
  | succ levels =>
    rw [staircaseWithin_stored hnone] at hstair
    obtain ⟨stored, hstored⟩ := exists_stored_of_staircase he hnone hstair
    refine ⟨stored, s, hstored, hs, isStaircase_stored he hnone hstored ?_ hstair⟩
    exact hdelay.mono fun d hd => Or.inl ⟨items, _, stored, hitems, hleaf, hstored, hd⟩

/-! ### Either way -/

/-- A staircase that is assembled. -/
theorem staircase_assembled (hu : e.expandedTree name = .ok u)
    (hfast : (e.config.fastStaircase && u.isPointwise e.registry) = true) {s : Series}
    (hs : e.staircase name delay window = .ok (some s)) : ∃ levels,
      e.assembleStaircase (e.staircaseWithin delay window levels) name u window = .ok s := by
  obtain ⟨t, ht, -⟩ := expandedTree_ok hu
  unfold staircase replayLevels at hs
  rw [staircaseWithin, contains_of_formulaTree? ht, if_pos rfl] at hs
  obtain ⟨u', hu', hs⟩ := Result.bind_ok hs
  obtain rfl := Except.ok.inj (hu.symm.trans hu')
  rw [if_pos hfast] at hs
  obtain ⟨s', hs', hsome⟩ := Result.bind_ok hs
  obtain rfl := Option.some.inj (Except.ok.inj hsome)
  exact ⟨e.formulas.size, hs'⟩

/-- A staircase that is taken from the history. -/
theorem staircase_replayed (hu : e.expandedTree name = .ok u)
    (hslow : (e.config.fastStaircase && u.isPointwise e.registry) = false) {s : Series}
    (hs : e.staircase name delay window = .ok (some s)) : ∃ h,
      e.history name (.allIn window) = .ok (some h) ∧
        History.staircase h name delay window = .ok s := by
  obtain ⟨t, ht, -⟩ := expandedTree_ok hu
  unfold staircase replayLevels at hs
  rw [staircaseWithin, contains_of_formulaTree? ht, if_pos rfl] at hs
  obtain ⟨u', hu', hs⟩ := Result.bind_ok hs
  obtain rfl := Except.ok.inj (hu.symm.trans hu')
  rw [if_neg (by rw [hslow]; exact Bool.false_ne_true)] at hs
  obtain ⟨found, hhist, hs⟩ := Result.bind_ok hs
  cases found with
  | none => cases hs
  | some h =>
    obtain ⟨s', hs', hsome⟩ := Result.bind_ok hs
    obtain rfl := Option.some.inj (Except.ok.inj hsome)
    exact ⟨h, hhist, Result.mapError_ok hs'⟩

/-! ### What an assembled staircase says -/

/-- The value of a formula over the staircases of its leaves. -/
theorem assembleKnown_ok {stairs : OrderedMap String Series} {s : Series}
    (hs : e.assembleKnown name u window stairs = .ok s) : ∃ r m, s = r.withName name ∧
      Gives (evaluate e.registry (climbing e.reader stairs) u (.latestIn window)) [] (.series r) m := by
  obtain ⟨v, hv, hs⟩ := Result.bind_ok hs
  obtain ⟨m, hm⟩ := gives_of_answerOf hv
  obtain ⟨r, hr, hs⟩ := Result.bind_ok hs
  obtain rfl := Except.ok.inj hs
  cases v with
  | series r' =>
    obtain rfl := Except.ok.inj hr
    exact ⟨r', m, rfl, hm⟩
  | _ => cases hr

/-- What a leaf gives in a window, of its staircase. -/
theorem eq_of_gives_climbing {stairs : OrderedMap String Series} {leaf : String} {stair : Series}
    (hfind : stairs.find? leaf = some stair) {q : Query} {m m' : Memo} {s : Series}
    (hs : Gives ((climbing e.reader stairs).series leaf q) m s m') : s = stair.window q.window := by
  simp only [climbing, hfind] at hs
  exact (gives_pure.1 hs).1.symm

/-- What a leaf gives in a window, of its version at a date. -/
theorem points_of_gives_replaying {known : Replayed} {leaf : String} {h : History}
    (hfind : known.series.find? leaf = some h) {d : InsertionDate} {version : Option Series}
    (hsame : SaysSame (History.asOf? h d) version) {w : Window} {m m' : Memo} {s : Series}
    (hs : Gives ((replaying A known).series leaf ⟨some d, w⟩) m s m') :
    s.points = (shown version leaf w).points := by
  simp only [replaying, hfind, versionFor_eq] at hs
  obtain ⟨rfl, -⟩ := gives_pure.1 hs
  exact (hsame.similar leaf leaf w).points

/-- An assembled staircase has its points in order, and says nothing where no leaf does. -/
theorem assembled_self (he : e.Consistent) (hu : e.IsExpanded u)
    (hpointwise : u.isPointwise .builtin = true) {stairs : OrderedMap String Series}
    (hstairs : e.KnowsStairs u delay window stairs) (t : Stamp) (quiet : Prop)
    (hquiet : quiet → ∀ items leaf s, list items ∈ u.nodes → leafName? items = some leaf →
      stairs.find? leaf = some s → s.valueOn t = missing) {s : Series}
    (hs : e.assembleKnown name u window stairs = .ok s) :
    s.IsSorted ∧ (quiet → s.valueOn t = missing) := by
  obtain ⟨r, m, rfl, hr⟩ := assembleKnown_ok hs
  rw [he.registry] at hr
  have hmeets := meets_of_gives t quiet hu.isFormula hpointwise
    (fun items leaf w hitems hleaf _ s _ _ s' _ hgives hgives' => ?_) hr hr
  · cases hmeets with
    | series h => exact ⟨h.left.sorted, h.nothing⟩
  · obtain ⟨stored, stair, -, hfind, hstair⟩ := hstairs items leaf hitems hleaf
    obtain rfl := eq_of_gives_climbing hfind hgives
    obtain rfl := eq_of_gives_climbing hfind hgives'
    have hsorted := isSorted_window hstair.sorted w
    refine meetAsLeaves hsorted hsorted rfl fun hq => ?_
    rw [valueOn_window hstair.sorted, hquiet hq items leaf stair hitems hleaf hfind, ite_self]

theorem isSorted_assembled (he : e.Consistent) (hu : e.IsExpanded u)
    (hpointwise : u.isPointwise .builtin = true) {stairs : OrderedMap String Series}
    (hstairs : e.KnowsStairs u delay window stairs) {s : Series}
    (hs : e.assembleKnown name u window stairs = .ok s) : s.IsSorted :=
  (assembled_self he hu hpointwise hstairs (.within 0 0) False False.elim hs).1

/-- What a version shows at a stamp. -/
theorem valueOn_shown {version : Option Series} (h : ∀ s ∈ version, s.IsSorted) (name : String)
    (w : Window) (t : Stamp) : (shown version name w).valueOn t =
      if w.contains t then version.elim missing fun s => s.valueOn t else missing := by
  cases version with
  | none => exact (ite_self missing).symm
  | some s => exact valueOn_window (h s rfl) w

theorem isSorted_shown {version : Option Series} (h : ∀ s ∈ version, s.IsSorted) (name : String)
    (w : Window) : (shown version name w).IsSorted := by
  cases version with
  | none => exact List.Pairwise.nil
  | some s => exact isSorted_window (h s rfl) w

/-- A version that is in effect has its points in order. -/
theorem isSorted_of_asOf? (he : e.Consistent) {stored : StoredSeries}
    (hstored : e.store.series.find? name = some stored) (d : InsertionDate) :
    ∀ s ∈ History.asOf? stored.versions d, s.IsSorted := fun _ hs =>
  (Store.isStored_of_version? (he.store.stored name stored hstored) (some d) hs).sorted

/-- A version of a formula has its points in order. -/
theorem isSorted_replayed (he : e.Consistent) (hu : e.IsExpanded u)
    (hpointwise : u.isPointwise .builtin = true) {d : InsertionDate} {known : Replayed}
    (hknown : e.IsKnown u d known) {r : Series} {m m' : Memo}
    (hr : Gives (evaluate .builtin (replaying A known) u ⟨some d, window⟩) m (.series r) m') :
    r.IsSorted := by
  have hmeets := meets_of_gives d False hu.isFormula hpointwise
    (fun items leaf w hitems hleaf _ s _ _ s' _ hgives hgives' => ?_) hr hr
  · cases hmeets with
    | series h => exact h.left.sorted
  · obtain ⟨stored, h, hstored, hfind, hsame⟩ := hknown.series items leaf hitems hleaf
    have hpoints := points_of_gives_replaying hfind hsame hgives
    have hpoints' := points_of_gives_replaying hfind hsame hgives'
    have hsorted := isSorted_shown (isSorted_of_asOf? he hstored d) leaf w
    exact meetAsLeaves ((isSorted_congr hpoints).2 hsorted) ((isSorted_congr hpoints').2 hsorted)
      (valueOn_congr (hpoints.trans hpoints'.symm)) False.elim

/-- **What an assembled staircase says** at a stamp is what the formula says at the last of its
dates that is reached a delay later. -/
theorem valueOn_assembled (he : e.Consistent) (hu : e.IsExpanded u)
    (hpointwise : u.isPointwise .builtin = true) (hdelay : delay.KeepsOrder (e.HasVersionAt u))
    {stairs : OrderedMap String Series} (hstairs : e.KnowsStairs u delay window stairs)
    {d : InsertionDate} (hd : e.HasVersionAt u d) (hreached : d.shift delay ≤ t)
    (hlast : ∀ k, e.HasVersionAt u k → k.shift delay ≤ t → k ≤ d) (hin : window.contains t = true)
    {known : Replayed} (hknown : e.IsKnown u d known) {s r : Series}
    (hs : e.assembleKnown name u window stairs = .ok s) {m m' : Memo}
    (hr : Gives (evaluate .builtin (replaying A known) u ⟨some d, window⟩) m (.series r) m') :
    s.valueOn t = r.valueOn t := by
  obtain ⟨r', k, rfl, hr'⟩ := assembleKnown_ok hs
  rw [he.registry] at hr'
  have hmeets := meets_of_gives t False hu.isFormula hpointwise
    (fun items leaf w hitems hleaf _ s _ _ s' _ hgives hgives' => ?_) hr' hr
  · cases hmeets with
    | series h => exact h.value
  · obtain ⟨stored, stair, hstored, hfind, hstair⟩ := hstairs items leaf hitems hleaf
    obtain ⟨stored', h, hstored', hfind', hsame⟩ := hknown.series items leaf hitems hleaf
    obtain rfl := Option.some.inj (hstored.symm.trans hstored')
    obtain rfl := eq_of_gives_climbing hfind hgives
    have hpoints := points_of_gives_replaying hfind' hsame hgives'
    have hversion := isSorted_of_asOf? he hstored d
    refine meetAsLeaves (isSorted_window hstair.sorted w)
      ((isSorted_congr hpoints).2 (isSorted_shown hversion leaf w)) ?_ False.elim
    have hkeys (k : InsertionDate) (hk : k ∈ stored.versions.keys) : e.HasVersionAt u k :=
      Or.inl ⟨items, leaf, stored, hitems, hleaf, hstored, hk⟩
    rw [valueOn_window hstair.sorted, valueOn_congr hpoints, valueOn_shown hversion, hstair.value,
      if_pos hin, History.delayed?_eq_asOf? hdelay hkeys hd hreached hlast]

/-- Where none of its versions was in effect a delay before, an assembled staircase says
nothing. -/
theorem valueOn_assembled_quiet (he : e.Consistent) (hu : e.IsExpanded u)
    (hpointwise : u.isPointwise .builtin = true) {stairs : OrderedMap String Series}
    (hstairs : e.KnowsStairs u delay window stairs) {s : Series}
    (hs : e.assembleKnown name u window stairs = .ok s)
    (hquiet : window.contains t = true → ∀ d, e.HasVersionAt u d → t < d.shift delay) :
    s.valueOn t = missing := by
  refine (assembled_self he hu hpointwise hstairs t True (fun _ items leaf stair hitems hleaf hfind =>
    ?_) hs).2 trivial
  obtain ⟨stored, stair', hstored, hfind', hvalue⟩ := hstairs items leaf hitems hleaf
  obtain rfl := Option.some.inj (hfind.symm.trans hfind')
  rw [hvalue.value]
  by_cases hin : window.contains t = true
  · have hnone : History.delayed? stored.versions delay t = none :=
      History.delayed?_eq_none fun k hk =>
        hquiet hin k (Or.inl ⟨items, leaf, stored, hitems, hleaf, hstored, hk⟩)
    rw [hnone, Option.elim_none, ite_self]
  · rw [if_neg hin]

/-! ### Both ways -/

/-- The dates at which something changes in a formula, by its leaves and constants. -/
theorem hasVersionAt_iff (he : e.Consistent) (hu : e.IsExpanded u) {d : InsertionDate} :
    e.HasVersionAt u d ↔
      (∃ items name stored, list items ∈ u.nodes ∧ leafName? items = some name ∧
        e.store.series.find? name = some stored ∧ d ∈ stored.versions.keys) ∨
      ∃ items c, list items ∈ u.nodes ∧ Calls items .constant ∧ constantOf items = .ok c ∧
        c.revised = d := by
  refine or_congr Iff.rfl ⟨?_, ?_⟩
  · rintro ⟨items, args, c, hitems, hcalls, hargs, hc, hd⟩
    exact ⟨items, c, hitems, hcalls,
      (constantOf_iff he (hu.isConstantCall hitems hcalls).scalar).2 ⟨args, hargs, hc⟩, hd⟩
  · rintro ⟨items, c, hitems, hcalls, hc, hd⟩
    obtain ⟨args, hargs, hc⟩ := (constantOf_iff he (hu.isConstantCall hitems hcalls).scalar).1 hc
    exact ⟨items, args, c, hitems, hcalls, hargs, hc, hd⟩

/-- **What the history of a formula is**, once it has been replayed. -/
structure IsReplayed (e : Engine) (u : Tree) (name : String) (window : Window) (h : History) :
    Prop where
  sorted : h.IsSorted
  keys : ∀ d, d ∈ h.keys ↔ e.HasVersionAt u d
  versions : ∀ d version, h.find? d = some version →
    ∃ (known : Replayed) (A : Resolver Memo) (r : Series) (m m' : Memo), e.IsKnown u d known ∧
      version = r.withName name ∧
      Gives (evaluate .builtin (replaying A known) u ⟨some d, window⟩) m (.series r) m'

theorem isReplayed (he : e.Consistent) (hu : e.expandedTree name = .ok u) {h : History}
    (hh : e.history name (.allIn window) = .ok (some h)) : e.IsReplayed u name window h := by
  have hexpanded := isExpanded he hu
  obtain ⟨levels, hreplay⟩ := history_ok hu rfl hh
  obtain ⟨known, filled, hcollected, hknown, hkeys, hversions⟩ := replay_ok he hexpanded hreplay
  refine ⟨isSorted_replay hreplay, fun d => ?_, fun d version hfind => ?_⟩
  · rw [hkeys, hcollected.mem_datesOf he hexpanded]
    exact and_iff_right rfl
  · obtain ⟨m, m', r, hversion, hr⟩ := hversions d version hfind
    rw [he.registry] at hr
    have hd := (hkeys d).1 (List.mem_map_of_mem (OrderedMap.mem_of_find? hfind))
    exact ⟨filled, _, r, m, m', hknown d hd, hversion, hr⟩

/-- **The staircase of a history** that has been replayed is the assembled one without its missing
values. -/
theorem IsReplayed.points_staircase {h : History} (hh : e.IsReplayed u name window h)
    (he : e.Consistent) (hu : e.IsExpanded u) (hpointwise : u.isPointwise .builtin = true)
    (hdelay : delay.KeepsOrder (e.HasVersionAt u)) {levels : Nat} {s : Series}
    (hs : e.assembleStaircase (e.staircaseWithin delay window levels) name u window = .ok s)
    {s' : Series} (hs' : History.staircase h name delay window = .ok s') :
    s'.points = s.dropMissing.points := by
  have hsortedVersions (version : Series) (hversion : version ∈ h.values) : version.IsSorted := by
    obtain ⟨d, hfind⟩ := (OrderedMap.mem_values_iff hh.sorted).1 hversion
    obtain ⟨known, A, r, m, m', hknown, rfl, hr⟩ := hh.versions d version hfind
    have hr := isSorted_replayed he hu hpointwise hknown hr
    exact hr
  have hstair := History.isStaircase hh.sorted hsortedVersions
    (hdelay.mono fun d hd => (hh.keys d).1 hd) hs'
  rw [assembleStaircase_eq] at hs
  obtain ⟨stairs, hstairs, hs⟩ := Result.bind_ok hs
  rw [he.registry] at hstairs
  have hstairs := knowsStairs he hu hdelay hstairs
  rw [← points_dropMissing_of_present hstair.present]
  refine points_dropMissing_eq hstair.sorted (isSorted_assembled he hu hpointwise hstairs hs)
    fun t => ?_
  rw [hstair.value, History.delayed?]
  by_cases hin : window.contains t = true
  · rw [if_pos hin]
    cases hreached : History.reached? delay t h.entries with
    | some entry =>
      obtain ⟨d, version⟩ := entry
      obtain ⟨hfind, hle, hlast⟩ := History.reached?_eq_some hh.sorted hreached
      obtain ⟨known, A, r, m, m', hknown, rfl, hr⟩ := hh.versions d version hfind
      have hd := (hh.keys d).1 (List.mem_map_of_mem (OrderedMap.mem_of_find? hfind))
      exact (valueOn_assembled he hu hpointwise hdelay hstairs hd hle
        (fun k hk => hlast k ((hh.keys k).2 hk)) hin hknown hs hr).symm
    | none =>
      refine (valueOn_assembled_quiet he hu hpointwise hstairs hs fun _ d hd => ?_).symm
      obtain ⟨entry, hentry, rfl⟩ := List.mem_map.1 ((hh.keys d).2 hd)
      exact History.reached?_eq_none_iff.1 hreached entry hentry
  · rw [if_neg hin]
    exact (valueOn_assembled_quiet he hu hpointwise hstairs hs fun h => absurd h hin).symm

/-! ### With and without fast staircases -/

theorem IsExpanded.withFastStaircase (hu : e.IsExpanded u) (allowed : Bool) :
    (e.withFastStaircase allowed).IsExpanded u := ⟨hu.nodes⟩

theorem hasVersionAt_withFastStaircase (he : e.Consistent) (hu : e.IsExpanded u) (allowed : Bool)
    {d : InsertionDate} : (e.withFastStaircase allowed).HasVersionAt u d ↔ e.HasVersionAt u d := by
  rw [hasVersionAt_iff he hu,
    hasVersionAt_iff (he.withFastStaircase allowed) (hu.withFastStaircase allowed)]
  rfl

theorem isKnown_withFastStaircase {d : InsertionDate} {known : Replayed} {allowed : Bool} :
    (e.withFastStaircase allowed).IsKnown u d known ↔ e.IsKnown u d known :=
  ⟨fun h => ⟨h.series, h.calls⟩, fun h => ⟨h.series, h.calls⟩⟩

theorem isReplayed_withFastStaircase (he : e.Consistent) (hu : e.IsExpanded u) (allowed : Bool)
    {h : History} : (e.withFastStaircase allowed).IsReplayed u name window h ↔
      e.IsReplayed u name window h := by
  constructor
  · intro hh
    refine ⟨hh.sorted, fun d => (hh.keys d).trans (hasVersionAt_withFastStaircase he hu allowed), ?_⟩
    simpa only [isKnown_withFastStaircase] using hh.versions
  · intro hh
    refine ⟨hh.sorted,
      fun d => (hh.keys d).trans (hasVersionAt_withFastStaircase he hu allowed).symm, ?_⟩
    simpa only [isKnown_withFastStaircase] using hh.versions

/-- **The two ways to a staircase.** Of a pointwise formula, the staircase that is replayed is the
one that is assembled without its missing values – as long as the delay keeps the order of the
dates at which the formula changes. So the two have the same points just where the assembled one
has no missing values. -/
theorem replayed_eq_assembled (he : e.Reachable) (hu : e.expandedTree name = .ok u)
    (hpointwise : u.isPointwise e.registry = true) (hdelay : delay.KeepsOrder (e.HasVersionAt u))
    {s s' : Series}
    (hs : (e.withFastStaircase true).staircase name delay window = .ok (some s))
    (hs' : (e.withFastStaircase false).staircase name delay window = .ok (some s')) :
    s'.points = s.dropMissing.points ∧
      (s.samePoints s' = true ↔ ∀ p ∈ s.points, p.2.isNaN = false) := by
  have he := he.consistent
  have hexpanded := isExpanded he hu
  obtain ⟨levels, hs⟩ := staircase_assembled (e := e.withFastStaircase true) hu hpointwise hs
  obtain ⟨h, hh, hs'⟩ := staircase_replayed (e := e.withFastStaircase false) hu rfl hs'
  have hh := isReplayed (he.withFastStaircase false) hu hh
  have hh := (isReplayed_withFastStaircase he hexpanded true).2
    ((isReplayed_withFastStaircase he hexpanded false).1 hh)
  rw [he.registry] at hpointwise
  have hpoints := hh.points_staircase (he.withFastStaircase true) (hexpanded.withFastStaircase true)
    hpointwise (hdelay.mono fun d => (hasVersionAt_withFastStaircase he hexpanded true).1) hs hs'
  refine ⟨hpoints, fun hsame => ?_, fun hpresent => ?_⟩
  · refine present_of_samePoints hsame fun p hp => ?_
    rw [hpoints] at hp
    have hkept := (List.mem_filter.1 hp).2
    simpa using hkept
  · exact samePoints_of_eq (hpoints.trans (points_dropMissing_of_present hpresent)).symm

/-! ### Missing values -/

/-- An engine with two stored series of two versions each, and a formula. -/
def revisingBoth (formula : String) : Engine :=
  let e := overNothing .initial
  let e := (e.updateSeries "a" (.ofPoints "a" [(dayOf2024 1, 1.0), (dayOf2024 2, 2.0)])
    (dayOf2024 0) false).engine
  let e := (e.updateSeries "b" (.ofPoints "b" [(dayOf2024 1, 10.0), (dayOf2024 2, 20.0)])
    (dayOf2024 0) false).engine
  let e := (e.updateSeries "a" (.ofPoints "a" [(dayOf2024 2, 3.0)]) (dayOf2024 1) false).engine
  let e := (e.updateSeries "b" (.ofPoints "b" [(dayOf2024 2, 30.0), (dayOf2024 3, 40.0)])
    (dayOf2024 1) false).engine
  (e.registerFormula "f" formula ⟨none, false⟩).engine

theorem reachable_revisingBoth (formula : String) : (revisingBoth formula).Reachable :=
  .registerFormula (.updateSeries (.updateSeries (.updateSeries (.updateSeries
    (reachable_overNothing rfl) _ _ _ _) _ _ _ _) _ _ _ _) _ _ _ _) _ _ _

/-- A sum of one series and twice another. -/
def weightedSum : String := "(add (series \"a\") (* 2 (series \"b\")))"

/-- A formula that is expanded and pointwise. -/
theorem exists_pointwise (e : Engine) (name : String) (h : (e.expandedTree name).toOption.any
    (fun u => u.isPointwise e.registry) = true) :
    ∃ u, e.expandedTree name = .ok u ∧ u.isPointwise e.registry = true :=
  Result.exists_ok_any h

/-- The staircases of either way, of which something holds. -/
theorem exists_both (e : Engine) (name : String) (delay : Span) (window : Window)
    (P : Series → Series → Bool)
    (h : (((e.withFastStaircase true).staircase name delay window).toOption.join.any fun s =>
      ((e.withFastStaircase false).staircase name delay window).toOption.join.any (P s)) = true) :
    ∃ s s', (e.withFastStaircase true).staircase name delay window = .ok (some s) ∧
      (e.withFastStaircase false).staircase name delay window = .ok (some s') ∧
      P s s' = true := by
  obtain ⟨s, hs, h⟩ := Result.exists_ok_some_any h
  obtain ⟨s', hs', h⟩ := Result.exists_ok_some_any h
  exact ⟨s, s', hs, hs', h⟩

/-- The sum a day behind: on the first day the first versions count, on the second day the second
ones, and each way gives both days. -/
theorem replayed_eq_assembled_revisingBoth : ∃ u s s',
    (revisingBoth weightedSum).expandedTree "f" = .ok u ∧
    u.isPointwise (revisingBoth weightedSum).registry = true ∧
    (Span.days 1).KeepsOrder ((revisingBoth weightedSum).HasVersionAt u) ∧
    ((revisingBoth weightedSum).withFastStaircase true).staircase "f" (.days 1) .unbounded =
      .ok (some s) ∧
    ((revisingBoth weightedSum).withFastStaircase false).staircase "f" (.days 1) .unbounded =
      .ok (some s') ∧
    s'.points = s.dropMissing.points ∧
    (s.samePoints s' = true ↔ ∀ p ∈ s.points, p.2.isNaN = false) ∧
    s.samePoints (.ofPoints "f" [(dayOf2024 1, 21.0), (dayOf2024 2, 63.0)]) = true := by
  obtain ⟨u, hu, hpointwise⟩ := exists_pointwise (revisingBoth weightedSum) "f" (by decide +kernel)
  obtain ⟨s, s', hs, hs', hpoints⟩ := exists_both (revisingBoth weightedSum) "f" (.days 1)
    .unbounded (fun s _ => s.samePoints
      (.ofPoints "f" [(dayOf2024 1, 21.0), (dayOf2024 2, 63.0)])) (by decide +kernel)
  obtain ⟨h, hh⟩ := Result.exists_ok_some (x := (revisingBoth weightedSum).history "f"
    (.allIn .unbounded)) (by decide +kernel)
  have hdelay : (Span.days 1).KeepsOrder ((revisingBoth weightedSum).HasVersionAt u) := by
    refine Span.keepsOrder_of_no_leap _ fun d hd => ?_
    have hkeys := ((isReplayed (reachable_revisingBoth _).consistent hu hh).keys d).2 hd
    have hall : ((revisingBoth weightedSum).history "f" (.allIn .unbounded)).toOption.join.all
        (fun h => h.keys.all fun d => !d.isLeapSecond) = true := by decide +kernel
    rw [hh] at hall
    simpa using List.all_eq_true.1 hall d hkeys
  obtain ⟨hdropped, hsame⟩ :=
    replayed_eq_assembled (reachable_revisingBoth _) hu hpointwise hdelay hs hs'
  exact ⟨u, s, s', hu, hpointwise, hdelay, hs, hs', hdropped, hsame, hpoints⟩

/-- A product of two series. -/
def product : String := "(* (series \"a\") (series \"b\"))"

/-- **The two ways to a staircase need not have the same points**: a product is missing where one
series has no point, and only the staircase that is replayed leaves this out. -/
theorem replayed_ne_assembled : ¬ ∀ e : Engine, e.Reachable → ∀ name u delay window s s',
    e.expandedTree name = .ok u → u.isPointwise e.registry = true →
    (e.withFastStaircase true).staircase name delay window = .ok (some s) →
    (e.withFastStaircase false).staircase name delay window = .ok (some s') →
    s.samePoints s' = true := by
  intro hall
  obtain ⟨u, hu, hpointwise⟩ := exists_pointwise (revisingBoth product) "f" (by decide +kernel)
  obtain ⟨s, s', hs, hs', hdiffer⟩ := exists_both (revisingBoth product) "f" (.days 1) .unbounded
    (fun s s' => !s.samePoints s') (by decide +kernel)
  rw [hall _ (reachable_revisingBoth _) "f" u _ _ s s' hu hpointwise hs hs'] at hdiffer
  cases hdiffer

/-- A stamp in the last second of the first day of 2024, or in a leap second after it. -/
def atEndOfDay (nano : Nat) : Stamp := .within 1704153599 nano

/-- An engine with two stored series, of which the second was inserted in a leap second, and their
sum. -/
def acrossLeapSecond : Engine :=
  let e := overNothing .initial
  let point := (atEndOfDay 500000000).shift (.days 1)
  let e := (e.updateSeries "a" (.ofPoints "a" [(point, 1.0)]) (atEndOfDay 900000000) false).engine
  let e := (e.updateSeries "b" (.ofPoints "b" [(point, 2.0)]) (atEndOfDay 1300000000) false).engine
  (e.registerFormula "f" "(add (series \"a\") (series \"b\"))" ⟨none, false⟩).engine

theorem reachable_acrossLeapSecond : acrossLeapSecond.Reachable :=
  .registerFormula (.updateSeries (.updateSeries (reachable_overNothing rfl) _ _ _ _) _ _ _ _) _ _ _

/-- **The delay has to keep the order of the dates**: a day after a leap second comes before a day
after the second before it, and then the sum is there only if it is replayed. -/
theorem points_replayed_ne : ¬ ∀ e : Engine, e.Reachable → ∀ name u delay window s s',
    e.expandedTree name = .ok u → u.isPointwise e.registry = true →
    (e.withFastStaircase true).staircase name delay window = .ok (some s) →
    (e.withFastStaircase false).staircase name delay window = .ok (some s') →
    s'.points = s.dropMissing.points := by
  intro hall
  obtain ⟨u, hu, hpointwise⟩ := exists_pointwise acrossLeapSecond "f" (by decide +kernel)
  obtain ⟨s, s', hs, hs', hdiffer⟩ := exists_both acrossLeapSecond "f" (.days 1) .unbounded
    (fun s s' => !(s'.isEmpty == s.dropMissing.isEmpty)) (by decide +kernel)
  rw [isEmpty, isEmpty, hall _ reachable_acrossLeapSecond "f" u _ _ s s' hu hpointwise hs hs',
    beq_self_eq_true] at hdiffer
  cases hdiffer

end Engine

end SeriesAlgebra
