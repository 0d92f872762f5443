import SeriesAlgebra.Proofs.Order.Map
import SeriesAlgebra.Proofs.Series.Cutting

/-!
# Values at stamps

What a series says at a stamp is a value, a missing one where it has no point
(`Series.valueOn`). The operations on series can be told by what they do to these
values: a map is the map of the value (`Series.valueOn_mapValues`), a window keeps the
value or makes it missing (`Series.valueOn_window`), and leaving out missing values
changes nothing. Two series without missing values that say the same at every stamp have
the same points (`Series.points_dropMissing_eq`).
-/

namespace SeriesAlgebra

namespace Series

/-- **What a series says at a stamp**, missing where it has no point. -/
def valueOn (s : Series) (t : Stamp) : Float := (s.at? t).getD missing

variable {s r : Series} {t : Stamp}

@[simp] theorem valueOn_withName (name : String) : (s.withName name).valueOn t = s.valueOn t := rfl

@[simp] theorem valueOn_withOptions (options : SeriesOptions) :
    (s.withOptions options).valueOn t = s.valueOn t := rfl

theorem valueOn_congr (h : s.points = r.points) : s.valueOn t = r.valueOn t := by
  rw [valueOn, valueOn, at?, at?, h]

theorem isSorted_congr (h : s.points = r.points) : s.IsSorted ↔ r.IsSorted := by
  rw [IsSorted, IsSorted, index, index, h]

/-! ### Points of a series in order -/

theorem at?_eq_some_iff (h : s.IsSorted) {x : Float} : s.at? t = some x ↔ (t, x) ∈ s.points :=
  (OrderedMap.mem_entries_iff (m := ⟨s.points⟩) h).symm

theorem valueOn_of_mem (h : s.IsSorted) {x : Float} (hx : (t, x) ∈ s.points) : s.valueOn t = x := by
  rw [valueOn, (at?_eq_some_iff h).2 hx, Option.getD_some]

theorem at?_eq_none_iff : s.at? t = none ↔ t ∉ s.index.stamps :=
  OrderedMap.find?_eq_none_iff (m := ⟨s.points⟩)

theorem mem_stamps_iff : t ∈ s.index.stamps ↔ ∃ x, s.at? t = some x := by
  rw [← not_iff_not, ← at?_eq_none_iff, Option.eq_none_iff_forall_ne_some, not_exists]

theorem valueOn_of_not_mem (h : t ∉ s.index.stamps) : s.valueOn t = missing := by
  rw [valueOn, at?_eq_none_iff.2 h, Option.getD_none]

/-- What is not missing is said by a point. -/
theorem mem_points_of_valueOn (h : s.IsSorted) (hx : (s.valueOn t).isNaN = false) :
    (t, s.valueOn t) ∈ s.points := by
  cases hat : s.at? t with
  | none =>
    rw [valueOn, hat, Option.getD_none, Double.isNaN_missing] at hx
    cases hx
  | some x =>
    rw [valueOn, hat, Option.getD_some]
    exact (at?_eq_some_iff h).1 hat

/-- What a series in order has at a stamp once some of its points are kept. -/
theorem at?_filter (h : s.IsSorted) (keep : Stamp × Float → Bool) :
    (s.withPoints (s.points.filter keep)).at? t = (s.at? t).filter fun x => keep (t, x) :=
  OrderedMap.find?_filter (m := ⟨s.points⟩) h (fun t x => keep (t, x)) t

/-! ### Operations on one series -/

/-- What a series with a value for each stamp of a list says. -/
theorem at?_map (s : Series) (stamps : List Stamp) (f : Stamp → Float) :
    (s.withPoints (stamps.map fun u => (u, f u))).at? t =
      if t ∈ stamps then some (f t) else none := by
  unfold at? withPoints
  induction stamps with
  | nil => rfl
  | cons u rest ih =>
    rw [List.map_cons, List.lookup_cons]
    by_cases htu : t = u
    · subst htu
      rw [beq_self_eq_true, if_pos List.mem_cons_self]
    · rw [beq_eq_false_iff_ne.2 htu, ih]
      simp only [List.mem_cons, htu, false_or]

theorem valueOn_map (s : Series) (stamps : List Stamp) (f : Stamp → Float) :
    (s.withPoints (stamps.map fun u => (u, f u))).valueOn t =
      if t ∈ stamps then f t else missing := by
  rw [valueOn, at?_map]
  split <;> rfl

theorem isSorted_map {stamps : List Stamp} (h : stamps.Pairwise (· < ·)) (f : Stamp → Float) :
    (s.withPoints (stamps.map fun u => (u, f u))).IsSorted := by
  change ((stamps.map fun u => (u, f u)).map (·.1)).Pairwise (· < ·)
  rw [List.map_map]
  exact (List.map_id stamps).symm ▸ h

theorem isSorted_mapValues (h : s.IsSorted) (f : Float → Float) : (s.mapValues f).IsSorted := by
  change ((s.points.map fun p => (p.1, f p.2)).map (·.1)).Pairwise (· < ·)
  rw [List.map_map]
  exact h

/-- A map of the values maps the value of a point. -/
theorem at?_mapValues (f : Float → Float) (s : Series) (t : Stamp) :
    (s.mapValues f).at? t = (s.at? t).map f :=
  OrderedMap.find?_mapValues (fun _ => f) ⟨s.points⟩ t

/-- A map that leaves missing values as they are maps what a series says. -/
theorem valueOn_mapValues {f : Float → Float} (hf : f missing = missing) (s : Series) (t : Stamp) :
    (s.mapValues f).valueOn t = f (s.valueOn t) := by
  rw [valueOn, valueOn, at?_mapValues]
  cases s.at? t with
  | none => exact hf.symm
  | some x => rfl

/-- **A window keeps a point, or leaves it out.** -/
theorem at?_window (h : s.IsSorted) (w : Window) :
    (s.window w).at? t = if w.contains t then s.at? t else none := by
  have hpoints := points_window h w
  rw [at?, hpoints]
  refine (at?_filter h fun p => w.contains p.1).trans ?_
  cases s.at? t with
  | none => exact (ite_self _).symm
  | some x => rfl

/-- What a series says is kept by a window, or made missing. -/
theorem valueOn_window (h : s.IsSorted) (w : Window) :
    (s.window w).valueOn t = if w.contains t then s.valueOn t else missing := by
  rw [valueOn, at?_window h, valueOn]
  split <;> rfl

theorem isSorted_dropMissing (h : s.IsSorted) : s.dropMissing.IsSorted :=
  isSorted_of_sublist h List.filter_sublist

theorem at?_dropMissing (h : s.IsSorted) :
    s.dropMissing.at? t = (s.at? t).filter fun x => !x.isNaN := at?_filter h _

theorem valueOn_dropMissing (h : s.IsSorted) : s.dropMissing.valueOn t = s.valueOn t := by
  rw [valueOn, valueOn, at?_dropMissing h]
  cases s.at? t with
  | none => rfl
  | some x =>
    rw [Option.filter_some]
    cases hx : x.isNaN with
    | false => rfl
    | true => exact (Double.eq_missing hx).symm

/-! ### Equal points -/

theorem mem_points_dropMissing_iff (h : s.IsSorted) {p : Stamp × Float} :
    p ∈ s.dropMissing.points ↔ s.valueOn p.1 = p.2 ∧ p.2.isNaN = false := by
  refine List.mem_filter.trans ⟨fun ⟨hp, hnan⟩ => ⟨valueOn_of_mem h hp, by simpa using hnan⟩, ?_⟩
  rintro ⟨hvalue, hnan⟩
  rw [← hvalue] at hnan
  have hp := mem_points_of_valueOn h hnan
  rw [hvalue] at hp hnan
  exact ⟨hp, by simpa using hnan⟩

/-- **Series that say the same everywhere** have the same points but for missing values. -/
theorem points_dropMissing_eq (hs : s.IsSorted) (hr : r.IsSorted)
    (h : ∀ t, s.valueOn t = r.valueOn t) : s.dropMissing.points = r.dropMissing.points := by
  refine OrderedMap.eq_of_mem_iff (isSorted_dropMissing hs) (isSorted_dropMissing hr) fun p => ?_
  rw [mem_points_dropMissing_iff hs, mem_points_dropMissing_iff hr, h]

/-- Nothing is left out of a series without missing values. -/
theorem points_dropMissing_of_present (h : ∀ p ∈ s.points, p.2.isNaN = false) :
    s.dropMissing.points = s.points :=
  List.filter_eq_self.2 fun p hp => congrArg Bool.not (h p hp)

/-- The points of a series that has the same points as one without missing values. -/
theorem present_of_samePoints (h : s.samePoints r = true)
    (hr : ∀ p ∈ r.points, p.2.isNaN = false) : ∀ p ∈ s.points, p.2.isNaN = false := by
  rw [samePoints, Bool.and_eq_true] at h
  obtain ⟨hindex, hvalues⟩ := h
  have hlength : s.values.length = r.values.length := by
    have hstamps := congrArg (fun i : TimeIndex => i.stamps.length) (beq_iff_eq.1 hindex)
    rw [values, values, List.length_map, List.length_map]
    simpa [index] using hstamps
  intro p hp
  obtain ⟨i, hi, hpi⟩ := List.mem_iff_getElem.1 (List.mem_map_of_mem (f := (·.2)) hp)
  change i < s.values.length at hi
  change s.values[i] = p.2 at hpi
  have hi' : i < r.values.length := hlength ▸ hi
  have hsame := List.all_eq_true.1 hvalues (s.values[i], r.values[i])
    (List.mem_iff_getElem.2 ⟨i, by rw [List.length_zip]; omega, List.getElem_zip⟩)
  have hpresent : r.values[i].isNaN = false := by
    obtain ⟨p', hp', heq⟩ := List.mem_map.1 (List.getElem_mem hi')
    exact heq ▸ hr p' hp'
  unfold sameValue at hsame
  dsimp only at hsame
  rw [hpi, hpresent, Bool.and_false, Bool.false_or] at hsame
  by_contra hnan
  rw [Bool.not_eq_false] at hnan
  rw [Double.eq_missing hnan, Double.missing_beq] at hsame
  cases hsame

/-- The points of a series in order are what it says at their stamps. -/
theorem points_eq_map (h : s.IsSorted) : s.points = s.index.stamps.map fun t => (t, s.valueOn t) := by
  rw [index, List.map_map]
  refine (List.map_id _).symm.trans (List.map_congr_left fun p hp => ?_)
  exact Prod.ext rfl (valueOn_of_mem h hp).symm

/-- **Series in order have the same points** if their stamps are the same and what they say is. -/
theorem samePoints_iff (hs : s.IsSorted) (hr : r.IsSorted) : s.samePoints r = true ↔
    s.index = r.index ∧ ∀ t, sameValue (s.valueOn t) (r.valueOn t) = true := by
  have hvalues {s : Series} (h : s.IsSorted) : s.values = s.index.stamps.map s.valueOn := by
    rw [values, points_eq_map h, List.map_map]
    rfl
  rw [samePoints, Bool.and_eq_true, beq_iff_eq, hvalues hs, hvalues hr]
  refine and_congr_right fun hindex => ?_
  rw [← hindex, List.zip_map', List.all_map, List.all_eq_true]
  refine ⟨fun h t => ?_, fun h t _ => h t⟩
  by_cases ht : t ∈ s.index.stamps
  · exact h t ht
  · rw [valueOn_of_not_mem ht, valueOn_of_not_mem (hindex ▸ ht)]
    exact sameValue_self _

/-- **What series say with a value** is the same if it is at every stamp. -/
theorem samePoints_dropMissing_iff (hs : s.IsSorted) (hr : r.IsSorted) :
    s.dropMissing.samePoints r.dropMissing = true ↔
      ∀ t, sameValue (s.valueOn t) (r.valueOn t) = true := by
  rw [samePoints_iff (isSorted_dropMissing hs) (isSorted_dropMissing hr)]
  simp only [valueOn_dropMissing hs, valueOn_dropMissing hr]
  refine and_iff_right_of_imp fun h => ?_
  have hmem {s : Series} (hs : s.IsSorted) (t : Stamp) :
      t ∈ s.dropMissing.index.stamps ↔ (s.valueOn t).isNaN = false := by
    constructor
    · intro ht
      obtain ⟨p, hp, rfl⟩ := List.mem_map.1 ht
      obtain ⟨hvalue, hpresent⟩ := (mem_points_dropMissing_iff hs).1 hp
      exact hvalue ▸ hpresent
    · intro hpresent
      exact List.mem_map.2 ⟨(t, s.valueOn t), (mem_points_dropMissing_iff hs).2 ⟨rfl, hpresent⟩, rfl⟩
  exact congrArg TimeIndex.mk (IsStrictOrder.eq_of_mem_iff (isSorted_dropMissing hs)
    (isSorted_dropMissing hr) fun t => (hmem hs t).trans (isNaN_of_sameValue (h t) ▸ (hmem hr t).symm))

end Series

end SeriesAlgebra
