import SeriesAlgebra.Operator.Constant
import SeriesAlgebra.Proofs.Calendar.Whole
import SeriesAlgebra.Proofs.Order.Map
import SeriesAlgebra.Proofs.Result
import SeriesAlgebra.Proofs.Series.Cutting

/-!
# Constant series in windows

A constant series makes only the steps of its grid inside the window asked for. Where
stamps count whole microseconds, these are the steps of the whole grid that lie in the
window (`Constant.HasGrid.series_ok`), so that asking for a window and cutting to it come to
the same (`Constant.HasGrid.points_series`).
-/

namespace SeriesAlgebra

namespace Constant

/-- Whether a constant series has a grid of whole microseconds. -/
structure HasGrid (c : Constant) : Prop where
  first : c.first.IsWhole
  last : c.last.IsWhole
  step : 0 < c.step.micros

/-- The stamp a number of steps after the first. -/
def gridStamp (c : Constant) (k : Int) : Stamp := c.first.shift ⟨k * c.step.micros⟩

variable {c : Constant}

/-! ### Options -/

theorem unset_of_series {w : Window} {s : Series} (h : c.series w = .ok s) :
    s.options = .unset := by
  unfold series at h
  dsimp only at h
  split at h
  · split at h
    · rw [← Except.ok.inj h]
      rfl
    · split at h
      · cases h
      · exact Series.unset_of_ofPoints? (Result.mapError_ok h)
  · rw [← Except.ok.inj h]
    rfl

theorem unset_of_read {q : Query} {s : Series} (h : c.read q = .ok s) : s.options = .unset := by
  unfold read at h
  split at h
  · rw [← Except.ok.inj h]
    rfl
  · exact unset_of_series h

/-! ### The grid -/

theorem micros?_eq {m n : Int} (h : micros? m = some n) : n = m := by
  unfold micros? at h
  split at h
  · exact (Option.some.inj h).symm
  · cases h

theorem stampAt?_eq {k : Int} {t : Stamp} (h : c.stampAt? k = some t) : t = c.gridStamp k := by
  unfold stampAt? at h
  obtain ⟨distance, hdistance, h⟩ := Option.bind_eq_some_iff.1 h
  obtain rfl := micros?_eq hdistance
  change (if (c.gridStamp k).inRange then some (c.gridStamp k) else none) = some t at h
  split at h
  · exact (Option.some.inj h).symm
  · cases h

namespace HasGrid

variable (hc : c.HasGrid)

include hc

theorem isWhole_gridStamp (k : Int) : (c.gridStamp k).IsWhole := hc.first.shift _

theorem micros_gridStamp (k : Int) :
    (c.gridStamp k).micros = c.first.micros + k * c.step.micros := hc.first.micros_shift _

theorem gridStamp_lt {k l : Int} (h : k < l) : c.gridStamp k < c.gridStamp l := by
  rw [(hc.isWhole_gridStamp k).lt_iff (hc.isWhole_gridStamp l), hc.micros_gridStamp,
    hc.micros_gridStamp]
  have := Int.mul_lt_mul_of_pos_right h hc.step
  omega

theorem nonneg_of_le {k : Int} (h : c.first ≤ c.gridStamp k) : 0 ≤ k := by
  rw [hc.first.le_iff (hc.isWhole_gridStamp k), hc.micros_gridStamp] at h
  by_contra hneg
  have := Int.mul_neg_of_neg_of_pos (Int.not_le.1 hneg) hc.step
  omega

/-- The steps before which a distance is not reached. -/
theorem le_gridStamp_iff {lower : Stamp} (hlower : lower.IsWhole) (k : Int) :
    lower ≤ c.gridStamp k ↔ c.stepsToReach (lower.micros - c.first.micros) ≤ k := by
  rw [hlower.le_iff (hc.isWhole_gridStamp k), hc.micros_gridStamp, stepsToReach, raised,
    Int.ediv_le_iff_le_mul hc.step]
  omega

/-- The steps after which a stamp is passed. -/
theorem gridStamp_le_iff {upper : Stamp} (hupper : upper.isLeapSecond = false) (k l : Int) :
    c.gridStamp (k + l) ≤ upper ↔
      l ≤ (upper.micros - (c.gridStamp k).micros) / c.step.micros := by
  rw [(hc.isWhole_gridStamp _).le_iff_of_not_leap hupper, hc.micros_gridStamp, hc.micros_gridStamp,
    Int.le_ediv_iff_mul_le hc.step, Int.add_mul]
  omega

/-- **The stamps of the grid between two bounds.** -/
theorem grid?_ok {lower upper : Stamp} (hlower : lower.IsWhole)
    (hupper : upper.isLeapSecond = false) {stamps : List Stamp}
    (h : c.grid? lower upper = some stamps) : stamps.Pairwise (· < ·) ∧
      ∀ t, t ∈ stamps ↔ ∃ k, t = c.gridStamp k ∧ lower ≤ t ∧ t ≤ upper := by
  unfold grid? at h
  obtain ⟨_, -, h⟩ := Option.bind_eq_some_iff.1 h
  obtain ⟨skipped, hskipped, h⟩ := Option.bind_eq_some_iff.1 h
  obtain rfl := micros?_eq hskipped
  rw [hc.first.microsBetween_eq hlower] at h
  dsimp only at h
  obtain ⟨start, hstart, h⟩ := Option.bind_eq_some_iff.1 h
  obtain rfl := stampAt?_eq hstart
  have hreached := hc.le_gridStamp_iff hlower
  generalize c.stepsToReach (lower.micros - c.first.micros) = first at hreached h
  split at h
  · rename_i hpassed
    obtain rfl := Option.some.inj h
    refine ⟨.nil, fun t => ⟨nofun, ?_⟩⟩
    rintro ⟨k, rfl, hk, hk'⟩
    have hfirst := (hreached k).1 hk
    rcases Int.lt_or_eq_of_le hfirst with hlt | rfl
    · have hle := Stamp.le_iff_lt_or_eq.2 (Or.inl (hc.gridStamp_lt hlt))
      exact absurd hpassed (Stamp.not_lt.2 (Stamp.le_trans hle hk'))
    · exact absurd hpassed (Stamp.not_lt.2 hk')
  · rename_i hnotPassed
    have hstart := Stamp.not_lt.1 hnotPassed
    obtain ⟨span, hspan, h⟩ := Option.bind_eq_some_iff.1 h
    obtain rfl := micros?_eq hspan
    rw [(hc.isWhole_gridStamp _).microsBetween_of_le hupper hstart] at h
    split at h
    · cases h
    have hwithin := hc.gridStamp_le_iff hupper first
    have hnonneg : 0 ≤ (upper.micros - (c.gridStamp first).micros) / c.step.micros := by
      rw [← hwithin 0, Int.add_zero]
      exact hstart
    generalize (upper.micros - (c.gridStamp first).micros) / c.step.micros = last at *
    have hmap : stamps = (List.range (last + 1).toNat).map fun (k : Nat) =>
        c.gridStamp (first + k) :=
      Result.eq_map_of_mapM (fun _ _ => stampAt?_eq) h
    subst hmap
    constructor
    · rw [List.pairwise_map]
      refine List.pairwise_lt_range.imp fun {k l} hkl => hc.gridStamp_lt ?_
      omega
    · intro t
      rw [List.mem_map]
      constructor
      · rintro ⟨k, hk, rfl⟩
        rw [List.mem_range] at hk
        exact ⟨first + k, rfl, (hreached _).2 (by omega), (hwithin k).2 (by omega)⟩
      · rintro ⟨k, rfl, hk, hk'⟩
        have hfirst := (hreached k).1 hk
        have hlast := (hwithin (k - first)).1 (by rwa [Int.add_comm, Int.sub_add_cancel])
        refine ⟨(k - first).toNat, List.mem_range.2 (by omega), ?_⟩
        congr 1
        omega

end HasGrid

/-! ### The points -/

/-- Whether a stamp lies in a window, and between the first and the last stamp. -/
def IsAsked (c : Constant) (w : Window) (t : Stamp) : Prop :=
  w.contains t = true ∧ c.first ≤ t ∧ t ≤ c.last

/-- The bounds between which all that is asked for lies. -/
structure Bounds (c : Constant) (w : Window) (lower upper : Stamp) : Prop where
  eq : w.intersect ⟨some c.first, some c.last⟩ = ⟨some lower, some upper⟩

theorem exists_bounds (c : Constant) (w : Window) : ∃ lower upper, c.Bounds w lower upper := by
  obtain ⟨lower, upper⟩ := w
  cases lower <;> cases upper <;> exact ⟨_, _, ⟨rfl⟩⟩

namespace Bounds

variable {w : Window} {lower upper : Stamp} (h : c.Bounds w lower upper)

include h

theorem between_iff (t : Stamp) : lower ≤ t ∧ t ≤ upper ↔ c.IsAsked w t := by
  have hcontains := Window.contains_intersect w ⟨some c.first, some c.last⟩ t
  rw [h.eq] at hcontains
  have hends (a b : Stamp) : Window.contains ⟨some a, some b⟩ t = true ↔ a ≤ t ∧ t ≤ b := by
    unfold Window.contains
    rw [Bool.and_eq_true]
    exact and_congr decide_eq_true_iff decide_eq_true_iff
  rw [← hends, hcontains, Bool.and_eq_true, hends]
  rfl

theorem isWhole_lower (hfirst : c.first.IsWhole) (hlower : ∀ t ∈ w.lower, t.IsWhole) :
    lower.IsWhole := by
  have hall := Window.forall_tighter Window.max_eq_or hlower fun t (ht : t ∈ some c.first) =>
    Option.some.inj ht ▸ hfirst
  exact hall lower (congrArg Window.lower h.eq)

theorem not_leap_upper (hlast : c.last.IsWhole)
    (hupper : ∀ t ∈ w.upper, t.isLeapSecond = false) : upper.isLeapSecond = false := by
  have hall := Window.forall_tighter Window.min_eq_or hupper fun t (ht : t ∈ some c.last) =>
    Option.some.inj ht ▸ hlast.isLeapSecond_eq
  exact hall upper (congrArg Window.upper h.eq)

/-- What a constant series has between bounds. -/
theorem series_eq : c.series w =
    if upper < lower then .ok (Series.empty operator)
    else match c.grid? lower upper with
      | none => refuse (.tooManyPoints lower upper)
      | some stamps =>
        (Series.ofPoints? operator (stamps.map fun t => (t, c.value))).mapError .frame := by
  unfold series
  rewrite [h.eq]
  rfl

end Bounds

/-- **Whether a series is what the grid of a constant series has in a window.** -/
structure IsGridIn (c : Constant) (w : Window) (s : Series) : Prop where
  sorted : s.IsSorted
  mem : ∀ p, p ∈ s.points ↔ p.2 = c.value ∧ ∃ k : Nat, p.1 = c.gridStamp k ∧ c.IsAsked w p.1

namespace HasGrid

variable (hc : c.HasGrid)

include hc

/-- **The points of a constant series in a window**, if there are not too many: the steps of the
grid that lie in it. -/
theorem series_cases {w : Window} (hlower : ∀ t ∈ w.lower, t.IsWhole)
    (hupper : ∀ t ∈ w.upper, t.isLeapSecond = false) {lower upper : Stamp}
    (hbounds : c.Bounds w lower upper) :
    c.grid? lower upper = none ∧ lower ≤ upper ∧
        c.series w = refuse (.tooManyPoints lower upper) ∨
      ∃ s, c.series w = .ok s ∧ c.IsGridIn w s := by
  rw [hbounds.series_eq]
  by_cases hempty : upper < lower
  · refine Or.inr ⟨_, if_pos hempty, .nil, fun p => ⟨nofun, ?_⟩⟩
    rintro ⟨-, -, -, hp⟩
    obtain ⟨hl, hu⟩ := (hbounds.between_iff p.1).2 hp
    exact absurd hempty (Stamp.not_lt.2 (Stamp.le_trans hl hu))
  rw [if_neg hempty]
  cases hgrid : c.grid? lower upper with
  | none => exact Or.inl ⟨rfl, Stamp.not_lt.1 hempty, rfl⟩
  | some stamps =>
    obtain ⟨hsorted, hmem⟩ := hc.grid?_ok (hbounds.isWhole_lower hc.first hlower)
      (hbounds.not_leap_upper hc.last hupper) hgrid
    have hpoints : (stamps.map fun t => (t, c.value)).map (·.1) = stamps := by
      rw [List.map_map]
      exact List.map_id stamps
    have hseries : Series.ofPoints? operator (stamps.map fun t => (t, c.value)) =
        .ok (Series.ofPoints operator (stamps.map fun t => (t, c.value))) :=
      Series.ofPoints?_ok_iff.2 ⟨hpoints.symm ▸ hsorted, rfl⟩
    have hsorted' : (Series.ofPoints operator (stamps.map fun t => (t, c.value))).IsSorted := by
      change ((stamps.map fun t => (t, c.value)).map (·.1)).Pairwise (· < ·)
      exact hpoints.symm ▸ hsorted
    refine Or.inr ⟨_, congrArg (Except.mapError _) hseries, hsorted', fun p => ?_⟩
    change p ∈ stamps.map (fun t => (t, c.value)) ↔ _
    simp only [← hbounds.between_iff]
    constructor
    · intro hp
      obtain ⟨t, ht, rfl⟩ := List.mem_map.1 hp
      obtain ⟨k, rfl, hbetween⟩ := (hmem t).1 ht
      obtain ⟨n, rfl⟩ := Int.eq_ofNat_of_zero_le
        (hc.nonneg_of_le ((hbounds.between_iff _).1 hbetween).2.1)
      exact ⟨rfl, n, rfl, hbetween⟩
    · rintro ⟨hvalue, k, hk, hbetween⟩
      exact List.mem_map.2 ⟨p.1, (hmem p.1).2 ⟨k, hk, hbetween⟩, Prod.ext rfl hvalue.symm⟩

theorem series_ok {w : Window} (hw : w.IsWhole) {s : Series} (h : c.series w = .ok s) :
    c.IsGridIn w s := by
  obtain ⟨lower, upper, hbounds⟩ := c.exists_bounds w
  rcases hc.series_cases hw.1 (fun t ht => (hw.2 t ht).isLeapSecond_eq) hbounds with
    ⟨-, -, hrefused⟩ | ⟨r, hr, hgrid⟩
  · cases h.symm.trans hrefused
  · exact Except.ok.inj (hr.symm.trans h) ▸ hgrid

/-- **A constant series asked for in a window** is the whole series cut to it. -/
theorem points_series {w : Window} (hw : w.IsWhole) {s whole : Series} (h : c.series w = .ok s)
    (hwhole : c.series .unbounded = .ok whole) : s.points = (whole.window w).points := by
  obtain ⟨hsorted, hmem⟩ := hc.series_ok hw h
  obtain ⟨hsorted', hmem'⟩ := hc.series_ok Window.isWhole_unbounded hwhole
  refine OrderedMap.eq_of_mem_iff hsorted (Series.isSorted_window hsorted' w) fun p => ?_
  rw [Series.points_window hsorted', List.mem_filter, hmem, hmem']
  constructor
  · rintro ⟨hvalue, k, hk, hcontains, hbounds⟩
    exact ⟨⟨hvalue, k, hk, rfl, hbounds⟩, hcontains⟩
  · rintro ⟨⟨hvalue, k, hk, -, hbounds⟩, hcontains⟩
    exact ⟨hvalue, k, hk, hcontains, hbounds⟩

end HasGrid

end Constant

end SeriesAlgebra
