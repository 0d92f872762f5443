import SeriesAlgebra.Proofs.Order.Map
import SeriesAlgebra.Proofs.Series.Similar
import SeriesAlgebra.Series.History

/-!
# Histories that differ in names

Two histories are similar if they have the same insertion dates and similar versions
(`History.Similar`). What is read off a history – the version in effect, differences,
the staircase – is then the same up to names.
-/

namespace SeriesAlgebra

open Series

/-- Whether two versions were inserted at one date and differ at most in their names. -/
structure SimilarVersions (a b : InsertionDate × Series) : Prop where
  date : a.1 = b.1
  version : a.2.Similar b.2

namespace History

/-- **Whether two histories differ at most in the names of their versions.** -/
def Similar (h h' : History) : Prop := List.Forall₂ SimilarVersions h.entries h'.entries

theorem Similar.refl (h : History) : Similar h h :=
  List.forall₂_same.2 fun _ _ => ⟨rfl, Series.Similar.refl _⟩

theorem similar_mapValues (h : History) {g : Series → Series} (hg : ∀ s : Series, s.Similar (g s)) :
    Similar h (h.mapValues fun _ => g) := by
  unfold Similar OrderedMap.mapValues
  rw [List.forall₂_map_right_iff]
  exact List.forall₂_same.2 fun _ _ => ⟨rfl, hg _⟩

variable {h h' : History} (hh : Similar h h')

include hh

theorem Similar.keys : h.keys = h'.keys := by
  unfold OrderedMap.keys
  unfold Similar at hh
  generalize h.entries = as at hh
  generalize h'.entries = bs at hh
  induction hh with
  | nil => rfl
  | cons hab _ ih => rw [List.map_cons, List.map_cons, hab.date, ih]

/-! ### Parts of histories -/

theorem Similar.filter (p : InsertionDate → Bool) :
    Similar (h.filter fun date _ => p date) (h'.filter fun date _ => p date) := by
  unfold Similar OrderedMap.filter at *
  dsimp only
  generalize h.entries = as at hh
  generalize h'.entries = bs at hh
  induction hh with
  | nil => exact .nil
  | cons hab _ ih =>
    rw [List.filter_cons, List.filter_cons, hab.date]
    split
    · exact .cons hab ih
    · exact ih

theorem Similar.mapValues {f g : Series → Series} (hfg : ∀ s t, s.Similar t → (f s).Similar (g t)) :
    Similar (h.mapValues fun _ => f) (h'.mapValues fun _ => g) := by
  unfold Similar OrderedMap.mapValues
  rw [List.forall₂_map_left_iff, List.forall₂_map_right_iff]
  exact List.Forall₂.imp (fun _ _ hab => ⟨hab.date, hfg _ _ hab.version⟩) hh

/-! ### Versions in effect -/

omit hh in
theorem rel_getLast? {α β : Type} {R : α → β → Prop} {as : List α} {bs : List β}
    (h : List.Forall₂ R as bs) : Option.Rel R as.getLast? bs.getLast? := by
  have hreverse := List.forall₂_reverse_iff.2 h
  rw [List.getLast?_eq_head?_reverse, List.getLast?_eq_head?_reverse]
  generalize as.reverse = cs at hreverse
  generalize bs.reverse = ds at hreverse
  cases hreverse with
  | nil => exact .none
  | cons hab _ => exact .some hab

omit hh in
theorem rel_version {a b : Option (InsertionDate × Series)} (hab : Option.Rel SimilarVersions a b) :
    Option.Rel Series.Similar (a.map (·.2)) (b.map (·.2)) := by
  cases hab with
  | none => exact .none
  | some hab => exact .some hab.version

theorem Similar.asOf? (date : InsertionDate) :
    Option.Rel Series.Similar (History.asOf? h date) (History.asOf? h' date) :=
  rel_version (rel_getLast? (hh.filter fun inserted => decide (inserted ≤ date)))

theorem Similar.version? (revision : Option InsertionDate) :
    Option.Rel Series.Similar (History.version? h revision) (History.version? h' revision) := by
  cases revision with
  | some date => exact hh.asOf? date
  | none => exact rel_version (rel_getLast? hh)

/-! ### More versions -/

theorem Similar.insert (date : InsertionDate) {s t : Series} (hst : s.Similar t) :
    Similar (h.insert date s) (h'.insert date t) := by
  unfold Similar OrderedMap.insert at *
  dsimp only
  generalize h.entries = as at hh
  generalize h'.entries = bs at hh
  induction hh with
  | nil => exact .cons ⟨rfl, hst⟩ .nil
  | @cons a b as bs hab hrest ih =>
    obtain ⟨k, s'⟩ := a
    obtain ⟨k', t'⟩ := b
    obtain rfl : k = k' := hab.date
    unfold OrderedMap.insertEntry
    split
    · exact .cons ⟨rfl, hst⟩ hrest
    · split
      · exact .cons ⟨rfl, hst⟩ (.cons hab hrest)
      · exact .cons hab ih

omit hh in
theorem similar_ofList {as bs : List (InsertionDate × Series)} (h : List.Forall₂ SimilarVersions as bs) :
    Similar (.ofList as) (.ofList bs) := by
  unfold Similar OrderedMap.ofList
  dsimp only
  induction h with
  | nil => exact .nil
  | @cons a b as bs hab _ ih =>
    rw [List.foldr_cons, List.foldr_cons]
    generalize as.foldr _ [] = cs at ih
    generalize bs.foldr _ [] = ds at ih
    obtain ⟨k, s⟩ := a
    obtain ⟨k', t⟩ := b
    obtain rfl : k = k' := hab.date
    dsimp only
    induction ih with
    | nil => exact .cons hab .nil
    | @cons c d cs ds hcd hrest ih =>
      obtain ⟨l, s'⟩ := c
      obtain ⟨l', t'⟩ := d
      obtain rfl : l = l' := hcd.date
      unfold OrderedMap.insertAbsentEntry
      split
      · exact .cons hcd hrest
      · split
        · exact .cons hab (.cons hcd hrest)
        · exact .cons hcd ih

/-! ### Differences -/

omit hh in
theorem similar_diff {base base' : Option Series} (hbase : Option.Rel Series.Similar base base')
    {s t : Series} (hst : s.Similar t) : (diff base s).Similar (diff base' t) := by
  cases hbase with
  | none => exact hst
  | some hbase =>
    rw [hst.eq_withName, hbase.eq_withName]
    exact ⟨rfl, rfl⟩

theorem Similar.diffs {before before' : Option Series}
    (hbefore : Option.Rel Series.Similar before before') :
    Similar (History.diffs h before) (History.diffs h' before') := by
  unfold Similar History.diffs at *
  dsimp only
  generalize h.entries = as at hh
  generalize h'.entries = bs at hh
  induction hh generalizing before before' with
  | nil => exact .nil
  | @cons a b as bs hab _ ih =>
    obtain ⟨k, s⟩ := a
    obtain ⟨k', t⟩ := b
    obtain rfl : k = k' := hab.date
    exact .cons ⟨rfl, similar_diff hbefore hab.version⟩ (ih (.some hab.version))

/-! ### Staircases -/

theorem Similar.steps (delay : Span) (window : Window) :
    History.steps delay window h.entries = History.steps delay window h'.entries := by
  unfold Similar at hh
  generalize h.entries = as at hh
  generalize h'.entries = bs at hh
  induction hh with
  | nil => rfl
  | @cons a b as bs hab hrest ih =>
    obtain ⟨k, s⟩ := a
    obtain ⟨k', t⟩ := b
    obtain rfl : k = k' := hab.date
    have hnext : as.head?.map (·.1) = bs.head?.map (·.1) := by
      cases hrest with
      | nil => rfl
      | cons hcd _ => exact congrArg some hcd.date
    rw [History.steps, History.steps, ih, hnext, step, step, hab.version.points]

/-- **The staircases of similar histories are similar.** -/
theorem Similar.staircase (name name' : String) (delay : Span) (window : Window) :
    Yields Series.Similar (History.staircase h name delay window)
      (History.staircase h' name' delay window) := by
  unfold History.staircase
  rw [hh.steps delay window]
  exact yields_ofPoints? name name' _

end History

end SeriesAlgebra
