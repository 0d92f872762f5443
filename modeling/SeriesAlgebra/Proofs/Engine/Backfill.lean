import SeriesAlgebra.Engine.Replay
import SeriesAlgebra.Proofs.Engine.Plain
import SeriesAlgebra.Proofs.Operator.Constant
import SeriesAlgebra.Proofs.Series.History

/-!
# Histories from a window on

A replay works with the versions that were inserted in a window. What is in effect at a
date of the window may have been inserted before the window; so a leaf that has nothing
up to the first date starts from its value at that date. Then the leaf has at every date
of the replay what is in effect there, or says as little: that is shown in general
(`Engine.saysSame_startingWith`), for stored series (`Engine.saysSame_backfillSeries`)
and for constant calls (`Engine.saysSame_backfillCall`).
-/

namespace SeriesAlgebra

open Evaluation Reading Series

/-! ### Versions that say nothing -/

/-- Whether a series has no points, and no options. -/
structure Series.IsBlank (s : Series) : Prop where
  points : s.points = []
  options : s.options = .unset

/-- **Whether two versions say the same**: they are equal, or neither says anything. -/
def SaysSame (v w : Option Series) : Prop :=
  v = w ∨ (∀ s ∈ v, s.IsBlank) ∧ ∀ s ∈ w, s.IsBlank

/-- What a version shows in a window, where there may be no version. -/
def shown (v : Option Series) (name : String) (w : Window) : Series :=
  v.elim (Series.empty name) (·.window w)

theorem similar_blank {v : Option Series} (h : ∀ s ∈ v, s.IsBlank) (name : String) (w : Window) :
    (shown v name w).Similar (Series.empty name) := by
  cases v with
  | none => exact Series.Similar.refl _
  | some s =>
    obtain ⟨hpoints, hoptions⟩ := h s rfl
    exact ⟨window_of_isEmpty (List.isEmpty_iff.2 hpoints) w, (options_window w).trans hoptions⟩

/-- What says the same shows the same. -/
theorem SaysSame.similar {v v' : Option Series} (h : SaysSame v v') (name name' : String)
    (w : Window) : (shown v name w).Similar (shown v' name' w) := by
  rcases h with rfl | ⟨hv, hv'⟩
  · cases v with
    | none => exact ⟨rfl, rfl⟩
    | some s => exact Series.Similar.refl _
  · have hempty : (Series.empty name).Similar (Series.empty name') := ⟨rfl, rfl⟩
    exact (similar_blank hv name w).trans (hempty.trans (similar_blank hv' name' w).symm)

namespace Engine

theorem versionFor_eq (h : History) (name : String) (d : InsertionDate) (w : Window) :
    versionFor h name ⟨some d, w⟩ = shown (History.asOf? h d) name w := by
  unfold versionFor shown
  rw [Option.bind_some]
  cases History.asOf? h d <;> rfl

/-! ### Starting from a version -/

/-- **A history that starts with the version in effect at a date**: if it has the later versions, it
has what is in effect at later dates. -/
theorem saysSame_startingWith {h : History} (hh : h.IsSorted) {first d : InsertionDate}
    (hle : first ≤ d) {version : InsertionDate → Option Series}
    (hinside : ∀ s, History.asOf? h d = some s → version d = some s)
    (hbefore : History.asOf? h d = none → version d = version first)
    {start : Series} (hunset : start.options = .unset)
    (hstart : SaysSame (some start) (version first)) (hafter : startsAfter h first = true) :
    SaysSame (History.asOf? (startingWith h first start) d) (version d) := by
  have hkeys : ∀ k ∈ h.keys, first < k :=
    History.asOf?_eq_none_iff.1 (Option.isNone_iff_eq_none.1 hafter)
  unfold startingWith
  split
  · rename_i hempty
    have hblank : start.IsBlank := ⟨List.isEmpty_iff.1 hempty, hunset⟩
    cases hasOf : History.asOf? h d with
    | some s => exact Or.inl (hinside s hasOf).symm
    | none =>
      rw [hbefore hasOf]
      refine Or.inr ⟨nofun, fun s hs => ?_⟩
      rcases hstart with heq | ⟨-, hversion⟩
      · rw [← heq] at hs
        exact Option.some.inj hs ▸ hblank
      · exact hversion s hs
  · rename_i hempty
    rw [History.asOf?_insert_first hh hkeys hle]
    cases hasOf : History.asOf? h d with
    | some s => exact Or.inl (hinside s hasOf).symm
    | none =>
      rw [hbefore hasOf]
      exact hstart

/-- A history that has something up to a date needs no other start. -/
theorem saysSame_of_not_startsAfter {h : History} {first d : InsertionDate} (hle : first ≤ d)
    {version : InsertionDate → Option Series}
    (hinside : ∀ s, History.asOf? h d = some s → version d = some s)
    (hafter : startsAfter h first = false) : SaysSame (History.asOf? h d) (version d) := by
  cases hasOf : History.asOf? h d with
  | some s => exact Or.inl (hinside s hasOf).symm
  | none =>
    have hnone : History.asOf? h first = none := by
      refine History.asOf?_eq_none_iff.2 fun k hk => ?_
      have hlt := History.asOf?_eq_none_iff.1 hasOf k hk
      rcases Stamp.le_iff_lt_or_eq.1 hle with hfirst | rfl
      · exact Stamp.lt_trans hfirst hlt
      · exact hlt
    unfold startsAfter at hafter
    rw [hnone] at hafter
    cases hafter

variable {e : Engine} {q : HistoryQuery} {first d : InsertionDate}

/-! ### Stored series -/

/-- The versions of a stored series inserted in a window. -/
def insertedIn (stored : StoredSeries) (w : Window) : History :=
  stored.versions.filter fun date _ => w.contains date

theorem read?_stored {name : String} {stored : StoredSeries}
    (hstored : e.store.series.find? name = some stored) (date : InsertionDate) (w : Window) :
    e.store.read? name ⟨some date, w⟩ =
      some (shown (History.asOf? stored.versions date) name w) := by
  have hversion : History.version? stored.versions (some date) =
      History.asOf? stored.versions date := rfl
  unfold Store.read? shown
  rw [hstored, Option.map_some, hversion]
  cases History.asOf? stored.versions date <;> rfl

theorem read_stored {name : String} (hname : e.formulaTree? name = .ok none) {stored : StoredSeries}
    (hstored : e.store.series.find? name = some stored) (date : InsertionDate) (w : Window) :
    e.read name ⟨some date, w⟩ = .ok (some (shown (History.asOf? stored.versions date) name w)) := by
  rw [read, not_contains hname, if_neg Bool.false_ne_true, read?_stored hstored]

theorem unset_of_asOf? (he : e.Consistent) {name : String} {stored : StoredSeries}
    (hstored : e.store.series.find? name = some stored) {s : Series}
    (hs : s ∈ History.asOf? stored.versions d) : s.options = .unset :=
  (Store.isStored_of_version? (he.store.stored name stored hstored) (some d) hs).unset

/-- **A stored series has what is in effect.** -/
theorem saysSame_backfillSeries (he : e.Consistent) {name : String}
    (hname : e.formulaTree? name = .ok none) {stored : StoredSeries}
    (hstored : e.store.series.find? name = some stored) (hfirst : q.inserted.contains first = true)
    (hd : q.inserted.contains d = true) (hle : first ≤ d) {leaf : String × History}
    (h : e.backfillSeries q.absolute first (name, insertedIn stored q.inserted) = .ok leaf) :
    leaf.1 = name ∧ SaysSame (History.asOf? leaf.2 d) (History.asOf? stored.versions d) := by
  have hsorted := (he.store.stored name stored hstored).sorted
  have hinside (s : Series) (hs : History.asOf? (insertedIn stored q.inserted) d = some s) :
      History.asOf? stored.versions d = some s := History.asOf?_of_filter hsorted hd hs
  have hbefore (hnone : History.asOf? (insertedIn stored q.inserted) d = none) :
      History.asOf? stored.versions d = History.asOf? stored.versions first :=
    History.asOf?_eq_of_filter hfirst hd hle hnone
  unfold backfillSeries at h
  split at h
  · rename_i hafter
    rw [show q.absolute.asOf first = ⟨some first, .unbounded⟩ from rfl,
      read_stored hname hstored] at h
    obtain rfl := Except.ok.inj h
    refine ⟨rfl, saysSame_startingWith (OrderedMap.isSorted_filter hsorted _) hle hinside hbefore
      ?_ ?_ hafter⟩
    · cases hasOf : History.asOf? stored.versions first with
      | none => rfl
      | some s => exact unset_of_asOf? he hstored hasOf
    · cases hasOf : History.asOf? stored.versions first with
      | none => exact Or.inr ⟨fun s hs => Option.some.inj hs ▸ ⟨rfl, rfl⟩, nofun⟩
      | some s => exact Or.inl rfl
  · rename_i hafter
    obtain rfl := Except.ok.inj h
    exact ⟨rfl, saysSame_of_not_startsAfter hle hinside (Bool.eq_false_iff.2 hafter)⟩

/-! ### Constant calls -/

/-- What is in effect of a constant series. -/
def constantVersion (c : Constant) (date : InsertionDate) : Option Series :=
  if date < c.revised then none else (c.series .unbounded).toOption

theorem read_constant {c : Constant} {date : InsertionDate} {s : Series}
    (h : c.read ⟨some date, .unbounded⟩ = .ok s) :
    SaysSame (some s) (constantVersion c date) ∧
      (¬ date < c.revised → c.series .unbounded = .ok s) := by
  unfold Constant.read at h
  unfold constantVersion
  change (if decide (date < c.revised) = true then _ else c.series .unbounded) = .ok s at h
  by_cases hbefore : date < c.revised
  · rw [if_pos (decide_eq_true hbefore)] at h
    obtain rfl := Except.ok.inj h
    rw [if_pos hbefore]
    exact ⟨Or.inr ⟨fun s hs => Option.some.inj hs ▸ ⟨rfl, rfl⟩, nofun⟩, fun h => absurd hbefore h⟩
  · rw [if_neg (by simpa using hbefore)] at h
    rw [if_neg hbefore, h]
    exact ⟨Or.inl rfl, fun _ => rfl⟩

/-- The version of a constant series that was inserted in a window. -/
theorem history_constant {c : Constant} {h : History} (hh : c.history q.absolute = .ok h) :
    q.inserted.contains c.revised = true ∧
        (∃ s, c.series .unbounded = .ok s ∧ h = OrderedMap.empty.insert c.revised s) ∨
      q.inserted.contains c.revised = false ∧ h = .empty := by
  unfold Constant.history at hh
  change (if q.inserted.contains c.revised then _ else _) = _ at hh
  split at hh
  · rename_i hcontains
    obtain ⟨s, hs, rfl⟩ := Result.map_ok hh
    exact Or.inl ⟨hcontains, s, hs, rfl⟩
  · rename_i hcontains
    exact Or.inr ⟨Bool.eq_false_iff.2 hcontains, (Except.ok.inj hh).symm⟩

/-- A history with the one version of a constant series. -/
theorem asOf?_constant {c : Constant} {s : Series} (hs : c.series .unbounded = .ok s)
    (date : InsertionDate) :
    History.asOf? (OrderedMap.empty.insert c.revised s) date = constantVersion c date := by
  have hkeys {k : InsertionDate} (hk : k ∈ (OrderedMap.empty.insert c.revised s).keys) :
      k = c.revised := List.mem_singleton.1 hk
  unfold constantVersion
  by_cases hbefore : date < c.revised
  · rw [if_pos hbefore]
    exact History.asOf?_eq_none_iff.2 fun k hk => hkeys hk ▸ hbefore
  · rw [if_neg hbefore, hs]
    refine (History.asOf?_eq_some_iff
      (OrderedMap.isSorted_insert OrderedMap.isSorted_empty _ _)).2 ⟨c.revised,
        OrderedMap.find?_insert_self _ _ _, Stamp.not_lt.1 hbefore, fun k hk _ => ?_⟩
    rw [hkeys hk]
    exact Stamp.le_refl _

/-- A constant series that was not inserted in a window is in effect at all dates of the window, or
at none. -/
theorem lt_revised_iff {c : Constant} (hout : q.inserted.contains c.revised = false)
    (hfirst : q.inserted.contains first = true) (hd : q.inserted.contains d = true)
    (hle : first ≤ d) : d < c.revised ↔ first < c.revised := by
  constructor
  · intro hlt
    rcases Stamp.le_iff_lt_or_eq.1 hle with hfirst | rfl
    · exact Stamp.lt_trans hfirst hlt
    · exact hlt
  · intro hlt
    by_contra hnot
    rw [Window.contains_between hfirst hd (Stamp.le_iff_lt_or_eq.2 (Or.inl hlt))
      (Stamp.not_lt.1 hnot)] at hout
    cases hout

/-- What the filling in of a constant call gives. -/
theorem backfillCall_ok (he : e.Consistent) {items : List Tree}
    (hcalls : Tree.Calls items .constant) (hscalar : ∀ t ∈ items.tail, t.IsScalar) {c : Constant}
    (hc : constantOf items = .ok c) {h : History} {formula text : String}
    {leaf : String × (Tree × History)} {m m' : Memo}
    (hleaf : Gives (e.backfillCall formula q.absolute first (text, .list items, h)) m leaf m') :
    startsAfter h first = false ∧ leaf = (text, .list items, h) ∨
      startsAfter h first = true ∧ ∃ s, c.read ⟨some first, .unbounded⟩ = .ok s ∧
        leaf = (text, .list items, startingWith h first s) := by
  unfold backfillCall at hleaf
  dsimp only at hleaf
  split at hleaf
  · rename_i hafter
    obtain ⟨v, _, hv, hleaf⟩ := gives_bind.1 hleaf
    obtain ⟨s, _, hs, hleaf⟩ := gives_bind.1 hleaf
    obtain ⟨rfl, -⟩ := gives_pure.1 hleaf
    rw [he.registry, evaluate_constant _ hcalls hscalar] at hv
    obtain ⟨known, _, hknown, hv⟩ := gives_bind.1 hv
    rw [Engine.reader, readerBelow_autotrophic] at hknown
    obtain ⟨rfl, -⟩ := gives_pure.1 hknown
    obtain ⟨hv, -⟩ := gives_settle.1 hv
    obtain ⟨c', hc', hv⟩ := Result.bind_ok hv
    obtain rfl := Except.ok.inj (hc.symm.trans hc')
    obtain ⟨r, hr, hv⟩ := Result.bind_ok hv
    obtain rfl := Except.ok.inj hv
    obtain ⟨hs, -⟩ := gives_settle.1 hs
    obtain rfl := Except.ok.inj hs
    exact Or.inr ⟨hafter, r, hr, rfl⟩
  · rename_i hafter
    obtain ⟨rfl, -⟩ := gives_pure.1 hleaf
    exact Or.inl ⟨Bool.eq_false_iff.2 hafter, rfl⟩

/-- **A constant call has what is in effect.** -/
theorem saysSame_backfillCall (he : e.Consistent) {items : List Tree}
    (hcalls : Tree.Calls items .constant) (hscalar : ∀ t ∈ items.tail, t.IsScalar) {c : Constant}
    (hc : constantOf items = .ok c) {h : History} (hh : c.history q.absolute = .ok h)
    (hfirst : q.inserted.contains first = true) (hd : q.inserted.contains d = true)
    (hle : first ≤ d) {formula text : String} {leaf : String × (Tree × History)} {m m' : Memo}
    (hleaf : Gives (e.backfillCall formula q.absolute first (text, .list items, h)) m leaf m') :
    leaf.1 = text ∧ leaf.2.1 = .list items ∧
      SaysSame (History.asOf? leaf.2.2 d) (constantVersion c d) ∧
      (¬ d < c.revised → ∃ s, c.series .unbounded = .ok s) := by
  have hsorted : h.IsSorted := by
    rcases history_constant hh with ⟨-, s, -, rfl⟩ | ⟨-, rfl⟩
    · exact OrderedMap.isSorted_insert OrderedMap.isSorted_empty _ _
    · exact OrderedMap.isSorted_empty
  have hinside (s : Series) (hs : History.asOf? h d = some s) : constantVersion c d = some s := by
    rcases history_constant hh with ⟨-, s', hs', rfl⟩ | ⟨-, rfl⟩
    · exact (asOf?_constant hs' d).symm.trans hs
    · cases hs
  have hbefore (hnone : History.asOf? h d = none) : constantVersion c d = constantVersion c first := by
    have hiff : d < c.revised ↔ first < c.revised := by
      rcases history_constant hh with ⟨-, s', hs', rfl⟩ | ⟨hout, rfl⟩
      · have hlt := History.asOf?_eq_none_iff.1 hnone c.revised (List.mem_singleton.2 rfl)
        refine ⟨fun _ => ?_, fun _ => hlt⟩
        rcases Stamp.le_iff_lt_or_eq.1 hle with hfirst | rfl
        · exact Stamp.lt_trans hfirst hlt
        · exact hlt
      · exact lt_revised_iff hout hfirst hd hle
    unfold constantVersion
    simp only [hiff]
  rcases backfillCall_ok he hcalls hscalar hc hleaf with ⟨hafter, rfl⟩ | ⟨hafter, s, hs, rfl⟩
  · refine ⟨rfl, rfl, saysSame_of_not_startsAfter hle hinside hafter, fun _ => ?_⟩
    rcases history_constant hh with ⟨-, s', hs', rfl⟩ | ⟨-, rfl⟩
    · exact ⟨s', hs'⟩
    · cases hafter
  · obtain ⟨hstart, hseries⟩ := read_constant hs
    refine ⟨rfl, rfl, saysSame_startingWith hsorted hle hinside hbefore (Constant.unset_of_read hs) hstart
      hafter, fun hnot => ?_⟩
    rcases history_constant hh with ⟨-, s', hs', -⟩ | ⟨hout, -⟩
    · exact ⟨s', hs'⟩
    · exact ⟨s, hseries fun hlt => hnot ((lt_revised_iff hout hfirst hd hle).2 hlt)⟩

end Engine

end SeriesAlgebra
