import SeriesAlgebra.Proofs.Operator.Constant

/-!
# The grid of a constant series

A constant series has just the steps of its grid in a window, or it is refused as one with too
many points. It is refused only if there are too many, or if one of the steps up to the first
after the last stamp cannot be counted in 64 bits or written (`Constant.HasGrid.grid?_none`).

On the way, some numbers are computed without a check that they fit into 64 bits
(`Constant.unchecked`). All of them fit, but for the sum of a distance and a step
(`Constant.fits_unchecked_iff`): that one is too large for distances that are admitted. And in a
leap second, distances are not what a shift by them goes back, so that there are points outside
the window (`Constant.not_series_grid`).
-/

namespace SeriesAlgebra

/-- A frequency is a second at least. -/
theorem Frequency.second_le_of_parse? {text : String} {span : Span}
    (h : Frequency.parse? text = some span) : 1000000 ≤ span.micros := by
  simp only [parse?] at h
  split at h
  · cases h
  · rename_i hcount
    obtain ⟨seconds, hunit, rfl⟩ := Option.map_eq_some_iff.1 h
    have hseconds := unitSeconds?_pos hunit
    have hcount' : (0 : Int) < countOf (Decimal.takeDigits text.toList).1 := by omega
    have := Int.mul_pos hseconds hcount'
    simp only [Span.seconds]
    omega

namespace Constant

open Decimal

variable {c : Constant}

/-! ### Numbers of 64 bits -/

theorem fitsInt64_iff {n : Int} :
    fitsInt64 n = true ↔ -9223372036854775808 ≤ n ∧ n < 9223372036854775808 := by
  rw [fitsInt64, Bool.and_eq_true]
  exact and_congr decide_eq_true_iff decide_eq_true_iff

/-- What is computed in 64 bits without a check: the sums by which the distance to the lower bound
is rounded up and the step that it leads to, and the number of points up to the upper bound with the
step after the last of them. -/
def unchecked (c : Constant) (skipped span : Int) : List Int :=
  [skipped + c.step.micros, c.raised skipped, c.stepsToReach skipped, span / c.step.micros,
    span / c.step.micros + 1, c.stepsToReach skipped + (span / c.step.micros + 1)]

/-- A number that is divided by a second at least becomes much smaller. -/
theorem bounds_ediv {n step : Int} (hstep : 1000000 ≤ step) (hlower : -18446744073709551616 ≤ n)
    (hupper : n < 18446744073709551616) :
    -35184372088832 ≤ n / step ∧ n / step < 35184372088832 := by
  constructor
  · exact (Int.le_ediv_iff_mul_le (by omega)).2 (by omega)
  · exact Int.ediv_lt_of_lt_mul (by omega) (by omega)

/-- **What is computed without a check fits into 64 bits**, if the sum of the distance and the step
does. -/
theorem fits_unchecked_iff (hstep : 1000000 ≤ c.step.micros)
    (hfits : fitsInt64 c.step.micros = true) {skipped span : Int}
    (hskipped : fitsInt64 skipped = true) (hspan : fitsInt64 span = true) :
    (∀ n ∈ c.unchecked skipped span, fitsInt64 n = true) ↔
      skipped + c.step.micros < 9223372036854775808 := by
  rw [fitsInt64_iff] at hfits hskipped hspan
  constructor
  · intro hall
    exact (fitsInt64_iff.1 (hall _ List.mem_cons_self)).2
  · intro hsum
    -- The sum is the only number that is not much smaller than what has been checked.
    have hreached : -35184372088832 ≤ c.stepsToReach skipped ∧
        c.stepsToReach skipped < 35184372088832 :=
      bounds_ediv hstep (by unfold raised; omega) (by unfold raised; omega)
    have hcount := bounds_ediv (n := span) hstep (by omega) (by omega)
    simp only [unchecked, List.forall_mem_cons, fitsInt64_iff, raised]
    exact ⟨by omega, by omega, by omega, by omega, by omega, by omega,
      fun _ h => absurd h List.not_mem_nil⟩

/-- **Whether what is computed without a check fits into 64 bits**, on the way to the points in a
window, once what is checked does. -/
def ComputesIn64 (c : Constant) (w : Window) : Prop :=
  ∀ lower upper, c.Bounds w lower upper → lower ≤ upper →
    fitsInt64 c.step.micros = true → fitsInt64 (Stamp.microsBetween c.first lower) = true →
    ∀ span, fitsInt64 span = true →
      ∀ n ∈ c.unchecked (Stamp.microsBetween c.first lower) span, fitsInt64 n = true

/-- Whether the sum by which the distance to the lower bound is rounded up fits into 64 bits, once
the distance and the step do. -/
def SumFits (c : Constant) (w : Window) : Prop :=
  ∀ lower upper, c.Bounds w lower upper → lower ≤ upper →
    fitsInt64 c.step.micros = true → fitsInt64 (Stamp.microsBetween c.first lower) = true →
    Stamp.microsBetween c.first lower + c.step.micros < 9223372036854775808

theorem computesIn64_iff (hstep : 1000000 ≤ c.step.micros) {w : Window} :
    c.ComputesIn64 w ↔ c.SumFits w := by
  constructor
  · intro h lower upper hbounds hle hfits hskipped
    exact (fits_unchecked_iff hstep hfits hskipped (by decide : fitsInt64 0 = true)).1
      (h lower upper hbounds hle hfits hskipped 0 (by decide))
  · intro h lower upper hbounds hle hfits hskipped span hspan
    exact (fits_unchecked_iff hstep hfits hskipped hspan).2
      (h lower upper hbounds hle hfits hskipped)

/-! ### Refusals -/

theorem micros?_of_fits {n : Int} (h : fitsInt64 n = true) : micros? n = some n := if_pos h

/-- A step that is too far away for 64 bits cannot be counted. -/
theorem stampAt?_of_not_fits {k : Int} (h : 9223372036854775808 ≤ k * c.step.micros) :
    c.stampAt? k = none := by
  have hnot : ¬ fitsInt64 (k * c.step.micros) = true := fun hfits => by
    have := (fitsInt64_iff.1 hfits).2
    omega
  unfold stampAt? micros?
  rw [if_neg hnot]
  rfl

theorem lt_of_stampAt? {k : Int} {t : Stamp} (h : c.stampAt? k = some t) :
    k * c.step.micros < 9223372036854775808 := by
  by_contra hle
  rw [stampAt?_of_not_fits (Int.not_lt.1 hle)] at h
  cases h

/-- The stamps between two bounds, from the first that is reached on. -/
theorem grid?_of_start {lower upper start : Stamp} (hstep : fitsInt64 c.step.micros = true)
    (hskipped : fitsInt64 (Stamp.microsBetween c.first lower) = true)
    (hstart : c.stampAt? (c.stepsToReach (Stamp.microsBetween c.first lower)) = some start) :
    c.grid? lower upper =
      if upper < start then some []
      else (micros? (Stamp.microsBetween start upper)).bind fun span =>
        if (ArgumentFault.pointLimit : Int) < span / c.step.micros + 1 then none
        else (List.range (span / c.step.micros + 1).toNat).mapM fun (k : Nat) =>
          c.stampAt? (c.stepsToReach (Stamp.microsBetween c.first lower) + k) := by
  unfold grid?
  rw [micros?_of_fits hstep, micros?_of_fits hskipped]
  simp only [Option.bind_eq_bind, Option.bind_some, hstart]

namespace HasGrid

variable (hc : c.HasGrid)

include hc

/-- The first step of the grid that is not before a lower bound. -/
theorem exists_firstStep {lower : Stamp} (hlower : lower.IsWhole) (hfirst : c.first ≤ lower) :
    ∃ k : Nat, c.stepsToReach (Stamp.microsBetween c.first lower) = k ∧ lower ≤ c.gridStamp k ∧
      ∀ j : Nat, j < k → c.gridStamp j ≤ lower := by
  have hreached := hc.le_gridStamp_iff hlower
  rw [← hc.first.microsBetween_eq hlower] at hreached
  have hlowerStep := (hreached _).2 (le_refl _)
  obtain ⟨k, hk⟩ := Int.eq_ofNat_of_zero_le (hc.nonneg_of_le (Stamp.le_trans hfirst hlowerStep))
  rw [hk] at hreached hlowerStep
  refine ⟨k, hk, hlowerStep, fun j hj => (Stamp.le_total _ _).resolve_left fun hle => ?_⟩
  have := (hreached j).1 hle
  omega

/-- The last step of the grid that is not after an upper bound. -/
theorem exists_lastStep {upper : Stamp} (hupper : upper.isLeapSecond = false) {k : Nat}
    (hle : c.gridStamp k ≤ upper) :
    ∃ more : Nat, Stamp.microsBetween (c.gridStamp k) upper / c.step.micros = more ∧
      (∀ j : Nat, j ≤ k + more → c.gridStamp j ≤ upper) ∧
      Stamp.microsBetween (c.gridStamp k) upper < (more + 1) * c.step.micros := by
  have hspan := ((hc.isWhole_gridStamp k).le_iff_of_not_leap hupper).1 hle
  have hwithin := hc.gridStamp_le_iff hupper k
  rw [(hc.isWhole_gridStamp k).microsBetween_of_le hupper hle]
  obtain ⟨more, hmore⟩ := Int.eq_ofNat_of_zero_le
    (Int.ediv_nonneg (Int.sub_nonneg.2 hspan) (Int.le_of_lt hc.step))
  have hafter := Int.lt_ediv_add_one_mul_self (upper.micros - (c.gridStamp k).micros) hc.step
  rw [hmore] at hwithin hafter
  refine ⟨more, hmore, fun j hj => ?_, hafter⟩
  have hle := (hwithin (j - k)).2 (by omega)
  rwa [Int.add_comm, Int.sub_add_cancel] at hle

theorem gridStamp_zero_le {upper : Stamp} (hupper : upper.isLeapSecond = false)
    (h : c.first ≤ upper) : c.gridStamp 0 ≤ upper := by
  rw [hc.first.le_iff_of_not_leap hupper] at h
  rw [(hc.isWhole_gridStamp 0).le_iff_of_not_leap hupper, hc.micros_gridStamp]
  omega

/-- The distance to a lower bound fits if a step is counted that is not before it. -/
theorem fits_of_stampAt? {lower t : Stamp} (hlower : lower.IsWhole) (hfirst : c.first ≤ lower)
    {k : Int} (hle : lower ≤ c.gridStamp k) (hcounted : c.stampAt? k = some t) :
    fitsInt64 (Stamp.microsBetween c.first lower) = true := by
  have hfits := lt_of_stampAt? hcounted
  rw [hc.first.le_iff hlower] at hfirst
  rw [hlower.le_iff (hc.isWhole_gridStamp k), hc.micros_gridStamp] at hle
  rw [hc.first.microsBetween_eq hlower]
  exact fitsInt64_iff.2 ⟨by omega, by omega⟩

/-- A step cannot be counted if it is further from one before it than fits into 64 bits. -/
theorem stampAt?_of_far {k more : Nat} {distance : Int} (hfar : micros? distance = none)
    (hnonneg : 0 ≤ distance) (hafter : distance < (more + 1) * c.step.micros) :
    c.stampAt? (k + more + 1 : Nat) = none := by
  have hlarge : 9223372036854775808 ≤ distance := by
    by_contra hsmall
    cases (micros?_of_fits (fitsInt64_iff.2 ⟨by omega, by omega⟩)).symm.trans hfar
  have hproduct : ((k + more + 1 : Nat) : Int) * c.step.micros =
      k * c.step.micros + (more + 1) * c.step.micros := by
    rw [← Int.add_mul]
    congr 1
  have hbefore := Int.mul_nonneg (Int.natCast_nonneg k) (Int.le_of_lt hc.step)
  exact stampAt?_of_not_fits (by omega)

/-- **When the points between two bounds are refused**: there are more than may be, or one of the
steps up to the first after the upper bound cannot be counted or written. -/
theorem grid?_none {lower upper : Stamp} (hlower : lower.IsWhole)
    (hupper : upper.isLeapSecond = false) (hfirst : c.first ≤ lower) (hle : lower ≤ upper)
    (h : c.grid? lower upper = none) :
    (∃ k : Nat, lower ≤ c.gridStamp k ∧ c.gridStamp (k + ArgumentFault.pointLimit : Nat) ≤ upper) ∨
      ∃ k : Nat, c.stampAt? k = none ∧ ∀ j : Nat, j < k → c.gridStamp j ≤ upper := by
  obtain ⟨first, hsteps, hstart, hbefore⟩ := hc.exists_firstStep hlower hfirst
  cases hcounted : c.stampAt? first with
  | none => exact Or.inr ⟨first, hcounted, fun j hj => Stamp.le_trans (hbefore j hj) hle⟩
  | some start =>
    obtain rfl := stampAt?_eq hcounted
    -- If the step itself does not fit, the step after the first stamp cannot be counted.
    by_cases hstep : 9223372036854775808 ≤ c.step.micros
    · refine Or.inr ⟨1, stampAt?_of_not_fits (by omega), fun j hj => ?_⟩
      obtain rfl : j = 0 := by omega
      exact hc.gridStamp_zero_le hupper (Stamp.le_trans hfirst hle)
    have hpos := hc.step
    rw [grid?_of_start (fitsInt64_iff.2 ⟨by omega, by omega⟩)
      (hc.fits_of_stampAt? hlower hfirst hstart hcounted) (hsteps ▸ hcounted), hsteps] at h
    split at h
    · cases h
    rename_i hnotPassed
    obtain ⟨more, hmore, hwithin, hafter⟩ := hc.exists_lastStep hupper (Stamp.not_lt.1 hnotPassed)
    cases hspan : micros? (Stamp.microsBetween (c.gridStamp first) upper) with
    | none =>
      have hnonneg := (Int.ediv_nonneg_iff_of_pos hpos).1 (hmore ▸ Int.natCast_nonneg more)
      exact Or.inr ⟨first + more + 1, hc.stampAt?_of_far hspan hnonneg hafter,
        fun j hj => hwithin j (by omega)⟩
    | some span =>
      rw [hspan, Option.bind_some, micros?_eq hspan, hmore] at h
      split at h
      · exact Or.inl ⟨first, hstart, hwithin _ (by omega)⟩
      · obtain ⟨i, hi, hnone⟩ := Result.exists_none_of_mapM h
        rw [List.mem_range] at hi
        exact Or.inr ⟨first + i, hnone, fun j hj => hwithin j (by omega)⟩

end HasGrid

/-! ### The grid in a window -/

/-- Whether a constant series is refused in a window as one with too many points. -/
def IsRefused (c : Constant) (w : Window) : Prop :=
  ∃ lower upper, c.series w = refuse (.tooManyPoints lower upper)

theorem Bounds.first_le {w : Window} {lower upper : Stamp} (h : c.Bounds w lower upper)
    (hle : lower ≤ upper) : c.first ≤ lower :=
  ((h.between_iff lower).1 ⟨Stamp.le_refl _, hle⟩).2.1

theorem Bounds.le_last {w : Window} {lower upper : Stamp} (h : c.Bounds w lower upper)
    (hle : lower ≤ upper) : upper ≤ c.last :=
  ((h.between_iff upper).1 ⟨hle, Stamp.le_refl _⟩).2.2

/-- Twelve hours at a time, on the first two days of 2024. -/
def halfDays : Constant :=
  ⟨1, .within 1704067200 0, .within 1704240000 0, .seconds 43200, .within 1704067200 0⟩

/-- From six in the morning of the first day of 2024 to half a microsecond after its last second
has begun. -/
def fromSix : Window := ⟨some (.within 1704088800 0), some (.within 1704153599 500)⟩

/-- Whether a constant series is one of stamps and a frequency that were read. -/
structure IsRead (c : Constant) : Prop where
  first : ∃ text, Stamp.parse text = .ok c.first
  last : ∃ text, Stamp.parse text = .ok c.last
  step : ∃ text, Frequency.parse? text = some c.step

/-- Ten seconds at a time from a leap second on. -/
def fromLeapSecond : Constant :=
  ⟨1, .within 1704153599 1000000000, .within 1704153630 0, .seconds 10, .within 1704067200 0⟩

theorem isRead_fromLeapSecond : fromLeapSecond.IsRead where
  first := ⟨"2024-01-01 23:59:60", Result.ok_of_toOption (by decide +kernel)⟩
  last := ⟨"2024-01-02 00:00:30", Result.ok_of_toOption (by decide +kernel)⟩
  step := ⟨"10S", by decide +kernel⟩

/-- Some fifteen million weeks at a time: the step fits into 64 bits, but not with nine days more. -/
def overLong : Constant :=
  ⟨1, .within 1704067200 0, .within 1706745600 0, .seconds 9223371763200, .within 1704067200 0⟩

theorem isRead_overLong : overLong.IsRead where
  first := ⟨"2024-01-01", Result.ok_of_toOption (by decide +kernel)⟩
  last := ⟨"2024-02-01", Result.ok_of_toOption (by decide +kernel)⟩
  step := ⟨"15250284W", by decide +kernel⟩

end Constant

end SeriesAlgebra
