import SeriesAlgebra.Proofs.Series.History
import SeriesAlgebra.Proofs.Store.Reachable

/-!
# The past of a store

What a store says of a date, and of the insertions up to a date, depends on the versions
up to there only. So two stores that have the same names and the same versions up to a date
(`Store.SamePast`) are read alike there, and their histories are the same in windows that
end by then.

An update of a name that is there leaves the past as it is if it comes after it
(`Store.samePast_update`, `Store.samePast_updateGroup`), whatever becomes of the series.
-/

namespace SeriesAlgebra

/-- Whether a window ends at a date or before it. -/
def Window.EndsBy (w : Window) (d : Stamp) : Prop := ∃ upper, w.upper = some upper ∧ upper ≤ d

theorem Window.EndsBy.le {w : Window} {d t : Stamp} (h : w.EndsBy d) (ht : w.contains t = true) :
    t ≤ d := by
  obtain ⟨upper, hupper, hle⟩ := h
  have hin := (Bool.and_eq_true_iff.1 ht).2
  rw [hupper] at hin
  exact Stamp.le_trans (of_decide_eq_true hin) hle

namespace History

variable {α : Type} {d date : InsertionDate}

/-! ### Versions up to a date -/

/-- The versions that were inserted up to a date. -/
def upTo (d : InsertionDate) (h : OrderedMap InsertionDate α) : OrderedMap InsertionDate α :=
  h.filter fun inserted _ => decide (inserted ≤ d)

theorem upTo_insert (h : OrderedMap InsertionDate α) (hdate : d < date) (a : α) :
    upTo d (h.insert date a) = upTo d h :=
  OrderedMap.filter_insert_of_not (p := fun inserted _ => decide (inserted ≤ d))
    (fun _ => decide_eq_false fun hle => Stamp.not_lt.2 hle hdate) h a

/-- A property that only holds up to a date is one of the versions up to there. -/
theorem filter_upTo (h : OrderedMap InsertionDate α) {p : InsertionDate → Bool}
    (hp : ∀ date, p date = true → date ≤ d) :
    (upTo d h).filter (fun date _ => p date) = h.filter fun date _ => p date := by
  unfold upTo OrderedMap.filter
  rw [List.filter_filter]
  congr 1
  refine List.filter_congr fun entry _ => ?_
  show (p entry.1 && decide (entry.1 ≤ d)) = p entry.1
  cases hentry : p entry.1 with
  | false => rfl
  | true => exact decide_eq_true (hp entry.1 hentry)

theorem asOf?_upTo (h : OrderedMap InsertionDate α) (hdate : date ≤ d) :
    asOf? (upTo d h) date = asOf? h date := by
  have hfilter := congrArg OrderedMap.entries (filter_upTo h (p := fun inserted => decide (inserted ≤ date))
    fun inserted hle => Stamp.le_trans (of_decide_eq_true hle) hdate)
  exact congrArg (fun entries => (entries.getLast?).map (·.2)) hfilter

end History

namespace Store

open History

variable {s s' s'' : Store} {d date : InsertionDate}

/-! ### Stores with one past -/

/-- The versions of a series up to a date. -/
def past? (s : Store) (d : InsertionDate) (name : String) : Option History :=
  (s.series.find? name).map fun stored => upTo d stored.versions

/-- The versions of a group up to a date. -/
def pastGroup? (s : Store) (d : InsertionDate) (name : String) : Option FrameHistory :=
  (s.groups.find? name).map (upTo d)

/-- **Whether two stores have the same past**: the same names, and up to a date the same versions of
each. -/
structure SamePast (d : InsertionDate) (s s' : Store) : Prop where
  series : ∀ name, s'.past? d name = s.past? d name
  groups : ∀ name, s'.pastGroup? d name = s.pastGroup? d name

theorem SamePast.refl (d : InsertionDate) (s : Store) : SamePast d s s :=
  ⟨fun _ => rfl, fun _ => rfl⟩

theorem SamePast.trans (h : SamePast d s s') (h' : SamePast d s' s'') : SamePast d s s'' :=
  ⟨fun name => (h'.series name).trans (h.series name),
    fun name => (h'.groups name).trans (h.groups name)⟩

/-! ### What is read of the past -/

theorem contains_eq_past? (s : Store) (d : InsertionDate) (name : String) :
    s.contains name = (s.past? d name).isSome := Option.isSome_map.symm

theorem containsGroup_eq_pastGroup? (s : Store) (d : InsertionDate) (name : String) :
    s.containsGroup name = (s.pastGroup? d name).isSome := Option.isSome_map.symm

theorem read?_eq_past? (s : Store) (hdate : date ≤ d) (name : String) (window : Window) :
    s.read? name ⟨some date, window⟩ = (s.past? d name).map fun past =>
      match asOf? past date with
      | some version => version.window window
      | none => Series.empty name := by
  unfold read? past?
  rw [Option.map_map]
  congr 1
  funext stored
  show (match asOf? stored.versions date with | some version => _ | none => _) =
    match asOf? (upTo d stored.versions) date with | some version => _ | none => _
  rw [asOf?_upTo _ hdate]

theorem readGroup?_eq_pastGroup? (s : Store) (hdate : date ≤ d) (name : String)
    (window : Window) :
    s.readGroup? name ⟨some date, window⟩ = (s.pastGroup? d name).map fun past =>
      match asOf? past date with
      | some table => table.window window
      | none => Frame.empty := by
  unfold readGroup? pastGroup?
  rw [Option.map_map]
  congr 1
  funext versions
  show (match asOf? versions date with | some table => _ | none => _) =
    match asOf? (upTo d versions) date with | some table => _ | none => _
  rw [asOf?_upTo _ hdate]

theorem history?_eq_past? (s : Store) {inserted : Window} (hinserted : inserted.EndsBy d)
    (name : String) (window : Window) :
    s.history? name inserted window = (s.past? d name).map fun past =>
      (past.filter fun date _ => inserted.contains date).mapValues fun _ version =>
        version.window window := by
  unfold history? past?
  rw [Option.map_map]
  congr 1
  funext stored
  rw [Function.comp_apply, filter_upTo _ fun date hdate => hinserted.le hdate]

namespace SamePast

theorem contains (h : SamePast d s s') (name : String) : s'.contains name = s.contains name := by
  rw [contains_eq_past? s' d, contains_eq_past? s d, h.series]

theorem containsGroup (h : SamePast d s s') (name : String) :
    s'.containsGroup name = s.containsGroup name := by
  rw [containsGroup_eq_pastGroup? s' d, containsGroup_eq_pastGroup? s d, h.groups]

/-- **A series is read alike at a date of the past.** -/
theorem read? (h : SamePast d s s') (hdate : date ≤ d) (name : String) (window : Window) :
    s'.read? name ⟨some date, window⟩ = s.read? name ⟨some date, window⟩ := by
  rw [read?_eq_past? s' hdate, read?_eq_past? s hdate, h.series]

/-- **A group is read alike at a date of the past.** -/
theorem readGroup? (h : SamePast d s s') (hdate : date ≤ d) (name : String) (window : Window) :
    s'.readGroup? name ⟨some date, window⟩ = s.readGroup? name ⟨some date, window⟩ := by
  rw [readGroup?_eq_pastGroup? s' hdate, readGroup?_eq_pastGroup? s hdate, h.groups]

/-- **Histories are the same in a window that ends in the past.** -/
theorem history? (h : SamePast d s s') {inserted : Window} (hinserted : inserted.EndsBy d)
    (name : String) (window : Window) :
    s'.history? name inserted window = s.history? name inserted window := by
  rw [history?_eq_past? s' hinserted, history?_eq_past? s hinserted, h.series]

end SamePast

/-! ### Updates after the past -/

/-- A later version of a series that is there leaves the past as it is. -/
theorem samePast_withVersion {name : String} {stored : StoredSeries}
    (hstored : s.series.find? name = some stored) (hdate : d < date) (version : Series) :
    SamePast d s (s.withStored name (stored.withVersion date version)) := by
  refine ⟨fun n => ?_, fun _ => rfl⟩
  unfold past? withStored
  by_cases hn : n = name
  · subst hn
    rw [OrderedMap.find?_insert_self, hstored]
    exact congrArg some (upTo_insert stored.versions hdate version)
  · rw [OrderedMap.find?_insert_of_ne _ hn]

/-- **An update of a series that is there leaves the past before it as it is.** -/
theorem samePast_update {name : String} {update : Series} {aware : Bool}
    {answer : Option Series × Store} (hname : s.contains name = true) (hdate : d < date)
    (hanswer : s.update name update date aware = .ok answer) : SamePast d s answer.2 := by
  obtain ⟨stored, hstored⟩ := Option.isSome_iff_exists.1 hname
  have hupdated : s.updated name aware = stored := updated_of_some hstored aware
  rcases update_cases hanswer with heq | ⟨_, version, -, heq⟩
  · rw [heq]
    exact .refl d s
  · rw [heq, hupdated]
    exact samePast_withVersion hstored hdate version

/-- **An update of a group that is there leaves the past before it as it is.** -/
theorem samePast_updateGroup {name : String} {table : Frame}
    (hname : s.containsGroup name = true) (hdate : d < date)
    (hs' : s.updateGroup name table date = .ok s') : SamePast d s s' := by
  obtain ⟨versions, hversions⟩ := Option.isSome_iff_exists.1 hname
  rw [updateGroup_ok hs']
  refine ⟨fun _ => rfl, fun n => ?_⟩
  unfold pastGroup?
  by_cases hn : n = name
  · subst hn
    rw [OrderedMap.find?_insert_self, hversions]
    exact congrArg some (upTo_insert versions hdate table)
  · rw [OrderedMap.find?_insert_of_ne _ hn]

end Store

end SeriesAlgebra
