import SeriesAlgebra.Proofs.Series.Cutting

/-!
# Slices of slices

To cut a series to a window and then to one within it is to cut it to the inner window
(`Series.window_window`), whether its stamps are in order or not: what is kept is found from
two prefixes of the stamps, and these only become longer or shorter (`between_between`).
-/

namespace SeriesAlgebra

variable {α : Type}

/-! ### Between two prefixes -/

/-- The points after those with one property, as far as they have another. -/
def between (P Q : Stamp → Bool) : List (Stamp × α) → List (Stamp × α)
  | [] => []
  | p :: rest =>
    if P p.1 then if Q p.1 then between P Q rest else []
    else (p :: rest).takeWhile fun p => Q p.1

section

variable {P Q P' Q' : Stamp → Bool}

theorem take_length_takeWhile (Q : Stamp → Bool) (points : List (Stamp × α)) (more : List Stamp) :
    points.take ((points.map (·.1) ++ more).takeWhile Q).length =
      points.takeWhile fun p => Q p.1 := by
  induction points with
  | nil => exact List.take_nil
  | cons p rest ih =>
    rw [List.map_cons, List.cons_append, List.takeWhile_cons, List.takeWhile_cons]
    cases Q p.1 with
    | true => exact congrArg (p :: ·) ih
    | false => rfl

/-- Positions that are counted on stamps, of which there may be more than points. -/
theorem slice_eq_between (P Q : Stamp → Bool) (points : List (Stamp × α)) (more : List Stamp) :
    slice ⟨((points.map (·.1) ++ more).takeWhile P).length,
      max ((points.map (·.1) ++ more).takeWhile Q).length
        ((points.map (·.1) ++ more).takeWhile P).length⟩ points = between P Q points := by
  unfold slice
  induction points with
  | nil =>
    rw [List.take_nil, List.drop_nil]
    rfl
  | cons p rest ih =>
    rw [between, List.map_cons, List.cons_append, List.takeWhile_cons, List.takeWhile_cons]
    cases hp : P p.1 with
    | true =>
      rw [if_pos rfl, if_pos rfl]
      cases hq : Q p.1 with
      | true =>
        rw [if_pos rfl, if_pos rfl, List.length_cons, List.length_cons, Nat.add_max_add_right,
          List.take_succ_cons, List.drop_succ_cons]
        exact ih
      | false =>
        rw [if_neg Bool.false_ne_true, if_neg Bool.false_ne_true, List.length_nil, Nat.zero_max,
          List.drop_take, Nat.sub_self, List.take_zero]
    | false =>
      rw [if_neg Bool.false_ne_true, if_neg Bool.false_ne_true, List.length_nil, Nat.max_zero,
        List.drop_zero, ← List.takeWhile_cons]
      exact take_length_takeWhile Q (p :: rest) more

theorem between_takeWhile (hQ : ∀ t, Q' t = true → Q t = true) (points : List (Stamp × α)) :
    between P' Q' (points.takeWhile fun p => Q p.1) = between P' Q' points := by
  induction points with
  | nil => rfl
  | cons p rest ih =>
    have hboth : ((p :: rest).takeWhile fun p => Q p.1).takeWhile (fun p => Q' p.1) =
        (p :: rest).takeWhile fun p => Q' p.1 := by
      rw [List.takeWhile_takeWhile]
      exact congrArg (List.takeWhile · _) (funext fun p => by
        cases hq : Q' p.1 with
        | true => simp [hQ _ hq]
        | false => simp)
    cases hq : Q p.1 with
    | true =>
      have htake : ((p :: rest).takeWhile fun p => Q p.1) = p :: rest.takeWhile fun p => Q p.1 :=
        List.takeWhile_cons_of_pos hq
      rw [htake] at hboth ⊢
      rw [between, between, ih, hboth]
    | false =>
      have htake : ((p :: rest).takeWhile fun p => Q p.1) = [] :=
        List.takeWhile_cons_of_neg (Bool.eq_false_iff.1 hq)
      have hq' : ¬ Q' p.1 = true := fun h => Bool.eq_false_iff.1 hq (hQ _ h)
      rw [htake] at hboth ⊢
      rw [between, between, if_neg hq', ← hboth]
      exact (ite_self _).symm

/-- Nothing lies between if all that the one prefix takes is taken by the other. -/
theorem between_eq_nil (h : ∀ t, Q' t = true → P' t = true) (points : List (Stamp × α)) :
    between P' Q' points = [] := by
  induction points with
  | nil => rfl
  | cons p rest ih =>
    rw [between]
    split
    · split
      · exact ih
      · rfl
    · rename_i hp
      exact List.takeWhile_cons_of_neg fun hq => hp (h _ hq)

/-- **Between two prefixes and then between two that lie within them.** -/
theorem between_between (hP : ∀ t, P t = true → P' t = true) (hQ : ∀ t, Q' t = true → Q t = true)
    (hcross : (∀ t, P t = true → Q' t = true) ∨ ∀ t, Q' t = true → P' t = true)
    (points : List (Stamp × α)) : between P' Q' (between P Q points) = between P' Q' points := by
  rcases hcross with hcross | hcross
  · induction points with
    | nil => rfl
    | cons p rest ih =>
      rw [between]
      split
      · rename_i hp
        rw [if_pos (hQ _ (hcross _ hp)), ih, between, if_pos (hP _ hp), if_pos (hcross _ hp)]
      · exact between_takeWhile hQ _
  · rw [between_eq_nil hcross, between_eq_nil hcross]

end

/-! ### Windows within windows -/

namespace Window

/-- **Whether a window lies within another one**: neither end is outside of the other's. -/
structure IsWithin (v w : Window) : Prop where
  lower : ∀ l, w.lower = some l → ∃ l', v.lower = some l' ∧ l ≤ l'
  upper : ∀ u, w.upper = some u → ∃ u', v.upper = some u' ∧ u' ≤ u

theorem IsWithin.refl (w : Window) : w.IsWithin w :=
  ⟨fun l hl => ⟨l, hl, Stamp.le_refl l⟩, fun u hu => ⟨u, hu, Stamp.le_refl u⟩⟩

theorem IsWithin.trans {u v w : Window} (h : u.IsWithin v) (h' : v.IsWithin w) : u.IsWithin w where
  lower l hl := by
    obtain ⟨l', hl', hle⟩ := h'.lower l hl
    obtain ⟨l'', hl'', hle'⟩ := h.lower l' hl'
    exact ⟨l'', hl'', Stamp.le_trans hle hle'⟩
  upper b hb := by
    obtain ⟨b', hb', hle⟩ := h'.upper b hb
    obtain ⟨b'', hb'', hle'⟩ := h.upper b' hb'
    exact ⟨b'', hb'', Stamp.le_trans hle' hle⟩

theorem isWithin_unbounded {v w : Window} (h : w.isUnbounded = true) : v.IsWithin w := by
  obtain ⟨hlower, hupper⟩ := Bool.and_eq_true_iff.1 h
  refine ⟨fun l hl => ?_, fun u hu => ?_⟩
  · rw [hl] at hlower
    cases hlower
  · rw [hu] at hupper
    cases hupper

theorem isWithin_intersect (v w : Window) : (v.intersect w).IsWithin v := by
  refine ⟨fun l hl => ?_, fun u hu => ?_⟩
  · unfold intersect tighter
    rw [hl]
    cases w.lower with
    | none => exact ⟨l, rfl, Stamp.le_refl l⟩
    | some m =>
      refine ⟨max l m, rfl, ?_⟩
      change l ≤ if l ≤ m then m else l
      split
      · assumption
      · exact Stamp.le_refl l
  · unfold intersect tighter
    rw [hu]
    cases w.upper with
    | none => exact ⟨u, rfl, Stamp.le_refl u⟩
    | some m =>
      refine ⟨min u m, rfl, ?_⟩
      change (if u ≤ m then u else m) ≤ u
      split
      · exact Stamp.le_refl u
      · rename_i hle
        exact (Stamp.le_total u m).resolve_left hle

end Window

/-- The points at the positions of a window within another one. -/
theorem between_window {v w : Window} (h : v.IsWithin w) (points : List (Stamp × α)) :
    between v.isBefore v.isUntil (between w.isBefore w.isUntil points) =
      between v.isBefore v.isUntil points := by
  refine between_between (fun t ht => ?_) (fun t ht => ?_) ?_ points
  · obtain ⟨l, hl, hlt⟩ := Window.isBefore_iff.1 ht
    obtain ⟨l', hl', hle⟩ := h.lower l hl
    refine Window.isBefore_iff.2 ⟨l', hl', ?_⟩
    rcases Stamp.le_iff_lt_or_eq.1 hle with hlt' | rfl
    · exact Stamp.lt_trans hlt hlt'
    · exact hlt
  · refine Window.isUntil_iff.2 fun u hu => ?_
    obtain ⟨u', hu', hle⟩ := h.upper u hu
    exact Stamp.le_trans (Window.isUntil_iff.1 ht u' hu') hle
  · -- The inner window is empty, or whatever comes before the outer one comes before its end.
    by_cases hempty : ∃ l u, v.lower = some l ∧ v.upper = some u ∧ u < l
    · obtain ⟨l, u, hl, hu, hlt⟩ := hempty
      refine Or.inr fun t ht => Window.isBefore_iff.2 ⟨l, hl, ?_⟩
      rcases Stamp.le_iff_lt_or_eq.1 (Window.isUntil_iff.1 ht u hu) with hlt' | rfl
      · exact Stamp.lt_trans hlt' hlt
      · exact hlt
    · refine Or.inl fun t ht => Window.isUntil_iff.2 fun u hu => ?_
      obtain ⟨l, hl, hlt⟩ := Window.isBefore_iff.1 ht
      obtain ⟨l', hl', hle⟩ := h.lower l hl
      have hle' : l' ≤ u := Stamp.not_lt.1 fun hlt => hempty ⟨l', u, hl', hu, hlt⟩
      exact Stamp.le_trans (Stamp.le_iff_lt_or_eq.2 (Or.inl hlt)) (Stamp.le_trans hle hle')

/-! ### Series and columns -/

theorem Series.window_eq (s : Series) (w : Window) :
    s.window w = s.withPoints (between w.isBefore w.isUntil s.points) := by
  have hslice := slice_eq_between w.isBefore w.isUntil s.points []
  rw [List.append_nil, ← (⟨s.points.map (·.1)⟩ : TimeIndex).range_eq w] at hslice
  unfold window
  split
  · rename_i hunbounded
    obtain ⟨hlower, hupper⟩ := Bool.and_eq_true_iff.1 hunbounded
    rw [← hslice]
    unfold slice TimeIndex.range
    rw [Option.isNone_iff_eq_none.1 hlower, Option.isNone_iff_eq_none.1 hupper]
    unfold withPoints TimeIndex.size
    simp
  · exact congrArg s.withPoints hslice

theorem Series.window_withName (s : Series) (name : String) (w : Window) :
    (s.withName name).window w = (s.window w).withName name := by
  rw [window_eq, window_eq]
  rfl

/-- **A series cut to a window and then to one within it** is cut to the inner one. -/
theorem Series.window_window (s : Series) {v w : Window} (h : v.IsWithin w) :
    (s.window w).window v = s.window v := by
  rw [window_eq, window_eq, window_eq]
  exact congrArg s.withPoints (between_window h s.points)

namespace Frame

theorem slice_zip {β : Type} (r : PositionRange) (xs : List α) (ys : List β) :
    (slice r xs).zip (slice r ys) = slice r (xs.zip ys) := by
  unfold slice List.zip
  rw [List.take_zipWith, List.drop_zipWith]

theorem map_fst_zip_append {β : Type} (xs : List α) (ys : List β) :
    (xs.zip ys).map (·.1) ++ xs.drop ys.length = xs := by
  induction xs generalizing ys with
  | nil => cases ys <;> rfl
  | cons x xs ih =>
    cases ys with
    | nil => rfl
    | cons y ys => exact congrArg (x :: ·) (ih ys)

end Frame

/-- The stamps and the values in a window, side by side. -/
theorem TimeIndex.zip_window {β : Type} (i : TimeIndex) (w : Window) (xs : List β) :
    (i.window w).stamps.zip (SeriesAlgebra.slice (i.range w) xs) =
      between w.isBefore w.isUntil (i.stamps.zip xs) := by
  have hpoints := slice_eq_between w.isBefore w.isUntil (i.stamps.zip xs) (i.stamps.drop xs.length)
  rw [Frame.map_fst_zip_append, ← i.range_eq w, ← Frame.slice_zip] at hpoints
  exact hpoints

namespace Frame

/-- **A column of a table that is cut** is the column cut. -/
theorem column?_window (f : Frame) (w : Window) (name : String) :
    (f.window w).column? name = (f.column? name).map (·.window w) := by
  have hcolumn (c : String × List Float) :
      (f.window w).columnSeries (c.1, slice (f.index.range w) c.2) = (f.columnSeries c).window w := by
    rw [Series.window_eq]
    exact congrArg (Series.ofPoints c.1) (f.index.zip_window w c.2)
  unfold column?
  have hcolumns : (f.window w).columns =
      f.columns.map fun c => (c.1, slice (f.index.range w) c.2) := rfl
  rw [hcolumns, List.find?_map, Option.map_map, Option.map_map]
  exact congrArg (Option.map · _) (funext hcolumn)

@[simp] theorem columnNames_window (f : Frame) (w : Window) :
    (f.window w).columnNames = f.columnNames := by
  unfold columnNames window mapColumns
  rw [List.map_map]
  rfl

end Frame

end SeriesAlgebra
