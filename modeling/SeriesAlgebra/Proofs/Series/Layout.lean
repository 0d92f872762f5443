import SeriesAlgebra.Proofs.Evaluation.Ordered
import SeriesAlgebra.Proofs.Series.Filling

/-!
# Series as two lists

The stamps and the values of a series can be kept in a list each (`Layout`). An operation then makes
both lists by itself: it cuts both along a range, looks values up by the positions of stamps, or sorts
the stamps that are left without looking at the values. Nothing says that the lists stay of one length,
that a position is within bounds, or that sorting does not drop a stamp whose value is kept.

Here the operations on series are given on two lists, and what reads a position that is out of bounds
gives nothing. Of a series in order they read no such position, and the lists that they make are those
of the result (`Series.isLaidOut`).
-/

namespace SeriesAlgebra

/-- Indexes in order are equal if they have the same stamps. -/
theorem TimeIndex.IsSorted.eq_of_mem_iff {i j : TimeIndex} (hi : i.IsSorted) (hj : j.IsSorted)
    (h : ∀ t, t ∈ i.stamps ↔ t ∈ j.stamps) : i = j :=
  congrArg TimeIndex.mk (IsStrictOrder.eq_of_mem_iff hi hj h)

theorem TimeIndex.isSorted_ofUnsorted (stamps : List Stamp) : (ofUnsorted stamps).IsSorted :=
  pairwise_sortedSet IsStrictOrder.trans IsStrictOrder.compare stamps

/-- **Sorting stamps that are in order drops none.** -/
theorem TimeIndex.IsSorted.ofUnsorted {i : TimeIndex} (h : i.IsSorted) : ofUnsorted i.stamps = i :=
  (isSorted_ofUnsorted i.stamps).eq_of_mem_iff h fun _ => mem_sortedSet

/-! ### Operations on two lists -/

/-- The stamps and the values of a series, each in a list of its own. -/
structure Layout where
  index : TimeIndex
  values : List Float

namespace Layout

/-- The lists of an index and of values, which must be as many. -/
def ofLists? (index : TimeIndex) (values : List Float) : Except FrameError Layout :=
  if index.size = values.length then .ok ⟨index, values⟩
  else .error (.lengthMismatch index.size values.length)

/-- The part of a list at a range of positions, if they are all in the list. -/
def slice? {α : Type} (r : PositionRange) (xs : List α) : Option (List α) :=
  if r.start ≤ r.stop ∧ r.stop ≤ xs.length then some (slice r xs) else none

/-- Both lists cut along one range. -/
def cut? (l : Layout) (r : PositionRange) : Option Layout := do
  return ⟨⟨← slice? r l.index.stamps⟩, ← slice? r l.values⟩

/-- The value at a position that a stamp may have; no value for no position, but nothing at all for
a position out of bounds. -/
def valueAt? (l : Layout) : Option Nat → Option (Option Float)
  | none => some none
  | some position => l.values[position]?.map some

/-- The value at a stamp. -/
def at? (l : Layout) (t : Stamp) : Option (Option Float) := l.valueAt? (l.index.position? t)

/-- The points in a window. -/
def window? (l : Layout) (w : Window) : Option Layout :=
  if w.isUnbounded then some l else l.cut? (l.index.range w)

/-- All points but the last `count`. -/
def pruneLast? (l : Layout) (count : Nat) : Option Layout := l.cut? ⟨0, l.values.length - count⟩

/-- The values at the stamps of another index. -/
def reindex? (l : Layout) (target : TimeIndex) : Option Layout := do
  let values ← (l.index.positionsIn target).mapM l.valueAt?
  return ⟨target, values.map (·.getD missing)⟩

/-- The same stamps with other values. -/
def withValues (l : Layout) (f : List Float → List Float) : Layout := ⟨l.index, f l.values⟩

/-- The points that are kept, their stamps sorted anew and without repetition. -/
def keep (l : Layout) (p : Stamp × Float → Bool) : Layout :=
  let kept := (l.index.stamps.zip l.values).filter p
  ⟨.ofUnsorted (kept.map (·.1)), kept.map (·.2)⟩

/-- The sums of all values so far. -/
def sums (total : Float) : List Float → List Float
  | [] => []
  | x :: rest => if x.isNaN then missing :: sums total rest else (total + x) :: sums (total + x) rest

/-- Arithmetic between two series on the merged stamps. -/
def combine? (l r : Layout) (op : Arithmetic) : Option (Except FrameError Layout) :=
  let plan := Alignment.merge l.index r.index
  match plan.validate with
  | .error e => some (.error (.index e))
  | .ok _ => do
    let left ← plan.left.mapM l.valueAt?
    let right ← plan.right.mapM r.valueAt?
    return ofLists? plan.union (List.zipWith (Series.applyBoth op) left right)

end Layout

namespace Series

/-- The lists of a series. -/
def layout (s : Series) : Layout := ⟨s.index, s.values⟩

/-- **Whether operations on a series can be done on its lists**: every position that is read is within
bounds, the lists that are made are those of the result, and a point that is kept stays at its stamp. -/
structure IsLaidOut (s : Series) : Prop where
  at? : ∀ t, s.layout.at? t = some (s.at? t)
  window : ∀ w, s.layout.window? w = some (s.window w).layout
  pruneLast : ∀ count, s.layout.pruneLast? count = some (s.pruneLast count).layout
  reindex : ∀ target, s.layout.reindex? target = some (s.reindex target).layout
  fill : ∀ p : FillPolicy, s.layout.withValues p.apply = (s.fill p).layout
  mapValues : ∀ f, s.layout.withValues (·.map f) = (s.mapValues f).layout
  cumulate : s.layout.withValues (Layout.sums 0.0) = s.cumulate.layout
  combine : ∀ r op, r.IsSorted → s.layout.combine? r.layout op = some ((s.combine r op).map layout)
  dropMissing : s.layout.keep (fun p => !p.2.isNaN) = s.dropMissing.layout
  at?_dropMissing : ∀ t x, s.dropMissing.at? t = some x ↔ s.at? t = some x ∧ x.isNaN = false
  diff : ∀ base : Series, s.layout.keep base.changes = (Series.diff (some base) s).layout
  at?_diff : ∀ (base : Series) t x, (Series.diff (some base) s).at? t = some x ↔
    s.at? t = some x ∧ base.changes (t, x) = true

/-! ### Cutting -/

theorem length_values (s : Series) : s.values.length = s.index.size := by
  rw [values, index, TimeIndex.size, List.length_map, List.length_map]

theorem map_slice {α β : Type} (f : α → β) (r : PositionRange) (xs : List α) :
    (SeriesAlgebra.slice r xs).map f = SeriesAlgebra.slice r (xs.map f) := by
  unfold SeriesAlgebra.slice
  rw [List.map_drop, List.map_take]

/-- **Both lists are cut** along a range within bounds as the points are. -/
theorem cut?_layout (s : Series) {r : PositionRange} (hr : r.start ≤ r.stop ∧ r.stop ≤ s.index.size) :
    s.layout.cut? r = some (s.withPoints (SeriesAlgebra.slice r s.points)).layout := by
  have hstamps : Layout.slice? r s.index.stamps = some (SeriesAlgebra.slice r s.index.stamps) :=
    if_pos hr
  have hvalues : Layout.slice? r s.values = some (SeriesAlgebra.slice r s.values) :=
    if_pos (s.length_values.symm ▸ hr)
  unfold Layout.cut? layout
  simp only [hstamps, hvalues]
  rw [index, values, ← map_slice, ← map_slice]
  rfl

/-! ### Reading -/

/-- **A stamp is found at a position that has its value.** -/
theorem valueAt?_position? (s : Series) (t : Stamp) :
    s.layout.valueAt? (s.index.position? t) = some (s.at? t) := by
  unfold Layout.valueAt? TimeIndex.position? layout index at? values
  induction s.points with
  | nil => rfl
  | cons p rest ih =>
    rw [List.map_cons, List.idxOf?_cons, List.lookup_cons]
    by_cases htp : p.1 = t
    · rw [beq_iff_eq.2 htp, beq_iff_eq.2 htp.symm]
      rfl
    · rw [beq_eq_false_iff_ne.2 htp, beq_eq_false_iff_ne.2 (Ne.symm htp),
        if_neg Bool.false_ne_true, ← ih]
      cases List.idxOf? t (rest.map (·.1)) <;> rfl

theorem mapM_valueAt? (s : Series) (target : TimeIndex) :
    (s.index.positionsIn target).mapM s.layout.valueAt? = some (target.stamps.map s.at?) := by
  refine Result.mapM_eq_some_iff.2 ?_
  simp only [TimeIndex.positionsIn, List.map_map]
  exact List.map_congr_left fun t _ => s.valueAt?_position? t

/-- The values of a series in order are those that it has at its stamps. -/
theorem values_eq_map {s : Series} (h : s.IsSorted) : s.values = s.index.stamps.map s.valueOn := by
  rw [values, points_eq_map h, List.map_map]
  rfl

theorem reindex?_layout (s : Series) (target : TimeIndex) :
    s.layout.reindex? target = some (s.reindex target).layout := by
  unfold Layout.reindex?
  rw [show s.layout.index = s.index from rfl, s.mapM_valueAt?]
  unfold reindex layout index values withPoints
  simp [Function.comp_def]

/-! ### Two series -/

/-- **Arithmetic reads both lists within bounds.** -/
theorem combine?_layout {s r : Series} (hs : s.IsSorted) (hr : r.IsSorted) (op : Arithmetic) :
    s.layout.combine? r.layout op = some ((s.combine r op).map layout) := by
  obtain ⟨u, hu, husorted, hstamps, hvalues⟩ := combine_exists hs hr op
  obtain ⟨hleft, hright⟩ := Alignment.positions_merge hs hr
  have hunion : (Alignment.merge s.index r.index).union = u.index :=
    (Alignment.isSorted_merge hs hr).eq_of_mem_iff husorted fun t =>
      (Alignment.mem_merge hs hr t).trans (hstamps t).symm
  have hpairs : List.zipWith (applyBoth op) (u.index.stamps.map s.at?)
      (u.index.stamps.map r.at?) = u.values := by
    rw [values_eq_map husorted]
    simp [hvalues]
  unfold Layout.combine?
  simp only [show s.layout.index = s.index from rfl, show r.layout.index = r.index from rfl,
    Alignment.validate_merge, hleft, hright, hunion, s.mapM_valueAt?, r.mapM_valueAt?, hu]
  change some (Layout.ofLists? u.index _) = some (.ok u.layout)
  rw [hpairs, Layout.ofLists?, if_pos u.length_values.symm]
  rfl

/-! ### Keeping points -/

theorem zip_index_values (s : Series) : s.index.stamps.zip s.values = s.points := by
  unfold index values
  rw [List.zip_map', List.map_id']

/-- **Points that are kept keep their stamps**, since sorting drops none of these. -/
theorem keep_layout {s : Series} (h : s.IsSorted) (p : Stamp × Float → Bool) :
    s.layout.keep p = (s.withPoints (s.points.filter p)).layout := by
  have hkept : (s.withPoints (s.points.filter p)).IsSorted :=
    isSorted_of_sublist h List.filter_sublist
  have hzip : s.layout.index.stamps.zip s.layout.values = s.points := s.zip_index_values
  unfold Layout.keep
  rw [hzip]
  exact congrArg (Layout.mk · _) hkept.ofUnsorted

theorem at?_filter_eq_some_iff {s : Series} (h : s.IsSorted) (p : Stamp × Float → Bool) (t : Stamp)
    (x : Float) : (s.withPoints (s.points.filter p)).at? t = some x ↔
      s.at? t = some x ∧ p (t, x) = true := by
  rw [at?_filter h, Option.filter_eq_some_iff]

/-! ### Other values -/

theorem map_snd_runningSums (total : Float) (points : List (Stamp × Float)) :
    (runningSums total points).map (·.2) = Layout.sums total (points.map (·.2)) := by
  induction points generalizing total with
  | nil => rfl
  | cons p rest ih =>
    obtain ⟨t, x⟩ := p
    rw [runningSums, List.map_cons, Layout.sums]
    split <;> simp [ih]

theorem cumulate_layout (s : Series) :
    s.layout.withValues (Layout.sums 0.0) = s.cumulate.layout := by
  unfold Layout.withValues layout cumulate index values withPoints
  rw [map_fst_runningSums, map_snd_runningSums]

theorem mapValues_layout (s : Series) (f : Float → Float) :
    s.layout.withValues (·.map f) = (s.mapValues f).layout := by
  unfold Layout.withValues layout mapValues index values withPoints
  simp [Function.comp_def]

theorem fill_layout (s : Series) (p : FillPolicy) :
    s.layout.withValues p.apply = (s.fill p).layout := by
  unfold layout
  rw [index_fill, values_fill]
  rfl

/-! ### All operations -/

theorem window?_layout (s : Series) (w : Window) :
    s.layout.window? w = some (s.window w).layout := by
  unfold Layout.window? window
  split
  · rfl
  · exact s.cut?_layout (s.index.range_within w)

theorem pruneLast?_layout (s : Series) (count : Nat) :
    s.layout.pruneLast? count = some (s.pruneLast count).layout := by
  have hvalues : s.layout.values.length = s.points.length := List.length_map _
  have hsize : s.index.size = s.points.length := List.length_map _
  unfold Layout.pruneLast? pruneLast
  rw [hvalues]
  exact s.cut?_layout ⟨Nat.zero_le _, hsize ▸ Nat.sub_le _ _⟩

/-- **A series in order is laid out.** -/
theorem isLaidOut {s : Series} (h : s.IsSorted) : s.IsLaidOut where
  at? := s.valueAt?_position?
  window := s.window?_layout
  pruneLast := s.pruneLast?_layout
  reindex := s.reindex?_layout
  fill := s.fill_layout
  mapValues := s.mapValues_layout
  cumulate := s.cumulate_layout
  combine _ op hr := combine?_layout h hr op
  dropMissing := keep_layout h _
  at?_dropMissing t x := (at?_filter_eq_some_iff h _ t x).trans (by simp)
  diff base := keep_layout h base.changes
  at?_diff base := at?_filter_eq_some_iff h base.changes

end Series

end SeriesAlgebra
