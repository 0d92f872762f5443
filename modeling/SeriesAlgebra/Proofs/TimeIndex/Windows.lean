import SeriesAlgebra.Proofs.Series.Layout
import SeriesAlgebra.Proofs.Series.Slicing

/-!
# The positions of a window

The positions of a window in an index are told by two prefixes of the stamps, those before the
window and those that it does not end before. In an index in order a stamp has such a property just
if its position is below the length of the prefix (`lt_length_takeWhile_iff`). So the positions of a
window are those of the stamps in it, and cutting the index there never leaves its bounds
(`TimeIndex.isExactRange`).

To cut to one window and then to another is to cut to the intersection, even if that is empty or has
its lower end above the upper one (`between_intersect`). This needs no order, and the values of a
column need not even be as many as the stamps (`TimeIndex.slice_slice`).
-/

namespace SeriesAlgebra

variable {α : Type}

/-! ### Prefixes -/

/-- **A property of a prefix** holds at a position just if the prefix is longer. -/
theorem lt_length_takeWhile_iff {P : α → Bool} {xs : List α} {p : Nat} {x : α}
    (h : xs.Pairwise fun x y => P y = true → P x = true) (hx : xs[p]? = some x) :
    p < (xs.takeWhile P).length ↔ P x = true := by
  induction xs generalizing p with
  | nil => simp at hx
  | cons y ys ih =>
    obtain ⟨hhead, htail⟩ := List.pairwise_cons.1 h
    rcases p with _ | p
    · obtain rfl : y = x := by simpa using hx
      by_cases hy : P y = true <;> simp [hy]
    · have hx' : ys[p]? = some x := by simpa using hx
      by_cases hy : P y = true
      · simp [hy, ih htail hx']
      · have hnot : ¬ P x = true := fun hpx => hy (hhead x (List.mem_of_getElem? hx') hpx)
        simp [hy, hnot]

namespace Window

/-- Without a lower end only the upper one counts. -/
theorem isUntil_intersect (v w : Window) (t : Stamp) :
    (v.intersect w).isUntil t = (v.isUntil t && w.isUntil t) :=
  contains_intersect ⟨none, v.upper⟩ ⟨none, w.upper⟩ t

/-- Without an upper end only the lower one counts. -/
theorem isBefore_intersect (v w : Window) (t : Stamp) :
    (v.intersect w).isBefore t = (v.isBefore t || w.isBefore t) := by
  have h := contains_intersect ⟨v.lower, none⟩ ⟨w.lower, none⟩ t
  have hlower (w : Window) : (⟨w.lower, none⟩ : Window).contains t = !w.isBefore t :=
    (contains_eq ⟨w.lower, none⟩ t).trans (Bool.and_true _)
  rw [hlower v, hlower w, ← Bool.not_or] at h
  exact Bool.not_inj ((hlower (v.intersect w)).symm.trans h)

/-- Of two windows one begins no later than the other. -/
theorem isBefore_total (v w : Window) : (∀ t, v.isBefore t = true → w.isBefore t = true) ∨
    ∀ t, w.isBefore t = true → v.isBefore t = true := by
  have hle {v w : Window} {l m : Stamp} (hl : v.lower = some l) (hm : w.lower = some m)
      (hlm : l ≤ m) (t : Stamp) (ht : v.isBefore t = true) : w.isBefore t = true := by
    obtain ⟨l', hl', hlt⟩ := isBefore_iff.1 ht
    obtain rfl := Option.some.inj (hl.symm.trans hl')
    rcases Stamp.le_iff_lt_or_eq.1 hlm with hlm | rfl
    · exact isBefore_iff.2 ⟨m, hm, Stamp.lt_trans hlt hlm⟩
    · exact isBefore_iff.2 ⟨l, hm, hlt⟩
  have hopen {v : Window} (hv : v.lower = none) (w : Window) (t : Stamp)
      (ht : v.isBefore t = true) : w.isBefore t = true := by
    obtain ⟨l, hl, -⟩ := isBefore_iff.1 ht
    cases hv.symm.trans hl
  rcases hv : v.lower with _ | l
  · exact Or.inl (hopen hv w)
  · rcases hw : w.lower with _ | m
    · exact Or.inr (hopen hw v)
    · exact (Stamp.le_total l m).imp (hle hv hw) (hle hw hv)

end Window

/-! ### Exact positions -/

/-- **Whether a range of an index is exact for a window**: it lies within the index, its positions
are those of the stamps in the window, and the part of the index there has these stamps in order. -/
structure TimeIndex.IsExactRange (i : TimeIndex) (w : Window) (r : PositionRange) : Prop where
  start_le_stop : r.start ≤ r.stop
  stop_le_size : r.stop ≤ i.size
  positions : ∀ p t, i.stamps[p]? = some t → (r.start ≤ p ∧ p < r.stop ↔ w.contains t = true)
  inBounds : Layout.slice? r i.stamps = some (i.slice r).stamps
  stamps : (i.slice r).stamps = i.stamps.filter w.contains

/-- **The positions of a window are exact** in an index in order. -/
theorem TimeIndex.isExactRange {i : TimeIndex} (h : i.IsSorted) (w : Window) :
    i.IsExactRange w (i.range w) := by
  obtain ⟨hstart, hstop⟩ := i.range_within w
  refine ⟨hstart, hstop, fun p t ht => ?_, if_pos ⟨hstart, hstop⟩, ?_⟩
  · have hbefore : p < (i.stamps.takeWhile w.isBefore).length ↔ w.isBefore t = true :=
      lt_length_takeWhile_iff (h.imp fun hab => Window.isBefore_of_lt hab) ht
    have huntil : p < (i.stamps.takeWhile w.isUntil).length ↔ w.isUntil t = true :=
      lt_length_takeWhile_iff (h.imp fun hab => Window.isUntil_of_lt hab) ht
    rw [Window.contains_eq, Bool.and_eq_true, Bool.not_eq_true', ← Bool.not_eq_true, ← hbefore,
      ← huntil, range_eq]
    dsimp only
    omega
  · have hpoints : (i.stamps.map fun t => (t, t)).map (·.1) = i.stamps :=
      List.map_map.trans (List.map_id' i.stamps)
    have hsorted : ((i.stamps.map fun t => (t, t)).map (·.1)).Pairwise (· < ·) := by rwa [hpoints]
    have hstamps := congrArg (List.map (·.1)) (slice_range w hsorted)
    rw [Series.map_slice, hpoints, List.filter_map, List.map_map] at hstamps
    refine hstamps.trans ?_
    simp [Function.comp_def]

/-! ### Two windows -/

section

variable {P Q P' Q' : Stamp → Bool}

/-- What lies between begins after the first prefix. -/
theorem head_between {points : List (Stamp × α)} {p : Stamp × α}
    (h : (between P Q points).head? = some p) : P p.1 = false := by
  induction points with
  | nil => cases h
  | cons q rest ih =>
    rw [between] at h
    split_ifs at h with hp hq
    · exact ih h
    · cases h
    · rw [List.takeWhile_cons] at h
      split_ifs at h
      · obtain rfl := Option.some.inj h
        exact Bool.not_eq_true _ ▸ hp
      · cases h

theorem mem_between {points : List (Stamp × α)} {p : Stamp × α} (h : p ∈ between P Q points) :
    Q p.1 = true := by
  induction points with
  | nil => cases h
  | cons q rest ih =>
    rw [between] at h
    split_ifs at h with hp hq
    · exact ih h
    · cases h
    · exact List.mem_takeWhile_imp (p := fun p : Stamp × α => Q p.1) h

/-- Nothing is cut off in front if the first point stays. -/
theorem between_of_head {points : List (Stamp × α)}
    (h : ∀ p, points.head? = some p → P p.1 = false) :
    between P Q points = points.takeWhile fun p => Q p.1 := by
  rcases points with _ | ⟨p, rest⟩
  · rfl
  · rw [between, if_neg (Bool.eq_false_iff.1 (h p rfl))]

theorem takeWhile_congr {p q : α → Bool} {xs : List α} (h : ∀ x ∈ xs, p x = q x) :
    xs.takeWhile p = xs.takeWhile q := by
  induction xs with
  | nil => rfl
  | cons x xs ih =>
    rw [List.takeWhile_cons, List.takeWhile_cons, h x List.mem_cons_self,
      ih fun y hy => h y (List.mem_cons_of_mem x hy)]

theorem between_congr {points : List (Stamp × α)} (hP : ∀ p ∈ points, P p.1 = P' p.1)
    (hQ : ∀ p ∈ points, Q p.1 = Q' p.1) : between P Q points = between P' Q' points := by
  induction points with
  | nil => rfl
  | cons p rest ih =>
    rw [between, between, hP p List.mem_cons_self, hQ p List.mem_cons_self,
      ih (fun q hq => hP q (List.mem_cons_of_mem p hq))
        (fun q hq => hQ q (List.mem_cons_of_mem p hq)),
      takeWhile_congr hQ]

end

/-- **Two cuts are one**: what is left of a list after a cut to either window is what a cut to their
intersection leaves. -/
theorem between_intersect (v w : Window) (points : List (Stamp × α)) :
    between w.isBefore w.isUntil (between v.isBefore v.isUntil points) =
      between (v.intersect w).isBefore (v.intersect w).isUntil points := by
  have hwithin := between_window (Window.isWithin_intersect v w) points
  rw [← hwithin]
  have huntil : ∀ p ∈ between v.isBefore v.isUntil points,
      w.isUntil p.1 = (v.intersect w).isUntil p.1 := by
    intro p hp
    rw [Window.isUntil_intersect, mem_between hp, Bool.true_and]
  rcases Window.isBefore_total v w with hle | hle
  · -- The second window begins no earlier, so that the intersection begins with it.
    refine between_congr (fun p _ => ?_) huntil
    rw [Window.isBefore_intersect, Bool.eq_iff_iff, Bool.or_eq_true]
    exact (or_iff_right_of_imp (hle p.1)).symm
  · -- The second window begins no later, so that it cuts nothing off in front any more.
    have hhead (p : Stamp × α) (hp : (between v.isBefore v.isUntil points).head? = some p) :
        w.isBefore p.1 = false := by
      rw [Bool.eq_false_iff]
      exact fun hw => Bool.eq_false_iff.1 (head_between hp) (hle p.1 hw)
    have hboth (p : Stamp × α) (hp : (between v.isBefore v.isUntil points).head? = some p) :
        (v.intersect w).isBefore p.1 = false := by
      rw [Window.isBefore_intersect, head_between hp, hhead p hp, Bool.or_self]
    rw [between_of_head hhead, between_of_head hboth]
    exact takeWhile_congr huntil

/-! ### Columns -/

namespace TimeIndex

/-- What stands at the positions of a window, be it as much as there are stamps or not. -/
theorem slice_eq_map_between (i : TimeIndex) (w : Window) (xs : List α) :
    SeriesAlgebra.slice (i.range w) xs =
      (between w.isBefore w.isUntil (i.stamps.zip xs)).map (·.2) := by
  obtain ⟨-, hstop⟩ := i.range_within w
  have hsnd : (i.stamps.zip xs).map (·.2) = xs.take i.size := by
    rw [List.zip_eq_zip_take_min, List.map_snd_zip (by simp), ← List.take_eq_take_min]
    rfl
  rw [← zip_window, window, slice, Frame.slice_zip, Series.map_slice, hsnd]
  unfold SeriesAlgebra.slice
  rw [List.take_take, Nat.min_eq_left hstop]

/-- **Cut twice**, whatever stands at the positions of an index is cut to the intersection. -/
theorem slice_slice (i : TimeIndex) (v w : Window) (xs : List α) :
    SeriesAlgebra.slice ((i.window v).range w) (SeriesAlgebra.slice (i.range v) xs) =
      SeriesAlgebra.slice (i.range (v.intersect w)) xs := by
  rw [slice_eq_map_between, zip_window, between_intersect, ← slice_eq_map_between]

theorem window_window (i : TimeIndex) (v w : Window) :
    (i.window v).window w = i.window (v.intersect w) :=
  congrArg TimeIndex.mk (i.slice_slice v w i.stamps)

end TimeIndex

theorem Series.window_intersect (s : Series) (v w : Window) :
    (s.window v).window w = s.window (v.intersect w) := by
  rw [window_eq, window_eq, window_eq]
  exact congrArg s.withPoints (between_intersect v w s.points)

theorem Frame.window_intersect (f : Frame) (v w : Window) :
    (f.window v).window w = f.window (v.intersect w) := by
  have hcolumns : (f.window v).columns =
      f.columns.map fun c => (c.1, slice (f.index.range v) c.2) := rfl
  have hindex : ((f.window v).window w).index = f.index.window (v.intersect w) :=
    f.index.window_window v w
  have hcut : ((f.window v).window w).columns =
      f.columns.map fun c => (c.1, slice (f.index.range (v.intersect w)) c.2) := by
    change (f.window v).columns.map (fun c => (c.1, slice ((f.index.window v).range w) c.2)) = _
    rw [hcolumns, List.map_map]
    refine List.map_congr_left fun c _ => ?_
    exact congrArg (Prod.mk c.1) (f.index.slice_slice v w c.2)
  exact congrArg₂ Frame.mk hindex hcut

/-- **Windows are exact and compose.** In an index in order, the positions of a window are within
bounds and those of the stamps in the window, also if its lower end is above its upper one. To cut a
series or a table to one window and then to another is to cut it to the intersection of both. -/
theorem windows_exact_and_compose (v w : Window) :
    (∀ i : TimeIndex, i.IsSorted → i.IsExactRange w (i.range w)) ∧
    (∀ s : Series, (s.window v).window w = s.window (v.intersect w)) ∧
    ∀ f : Frame, (f.window v).window w = f.window (v.intersect w) :=
  ⟨fun _ hi => TimeIndex.isExactRange hi w, fun s => s.window_intersect v w,
    fun f => f.window_intersect v w⟩

/-- A window whose lower end is above its upper one has no stamps, between two that are there. -/
theorem windows_exact_and_compose_inverted :
    let i : TimeIndex := ⟨[.within 0 0, .within 1 0, .within 3 0]⟩
    let v : Window := ⟨some (.within 1 0), none⟩
    let w : Window := ⟨some (.within 2 0), some (.within 0 0)⟩
    i.IsSorted ∧ i.range w = ⟨2, 2⟩ ∧ Layout.slice? (i.range w) i.stamps = some [] ∧
      ∀ s : Series, (s.window v).window w = s.window ⟨some (.within 2 0), some (.within 0 0)⟩ := by
  intro i v w
  have hi : i.IsSorted := by unfold TimeIndex.IsSorted; decide +kernel
  obtain ⟨hexact, hseries, -⟩ := windows_exact_and_compose v w
  have hnone : i.stamps.filter w.contains = [] := by decide +kernel
  have hstamps := (hexact i hi).stamps.trans hnone
  have hintersect : v.intersect w = ⟨some (.within 2 0), some (.within 0 0)⟩ := by decide +kernel
  exact ⟨hi, by decide +kernel, hstamps ▸ (hexact i hi).inBounds,
    fun s => (hseries s).trans (congrArg s.window hintersect)⟩

end SeriesAlgebra
