import SeriesAlgebra.Calendar.Zone
import SeriesAlgebra.Window

/-!
# Clocks and windows

The clocks of a zone are less than a day ahead of universal time or behind it
(`Zone.offsetAt_bounds`). So a moment at which they show a stamp of a window lies in the
window that is a day wider at either end (`Window.contains_widen_of_toLocal`). A bound inside
a leap second may move by a second less than a day, but no clocks are off by as much as that.
-/

namespace SeriesAlgebra

namespace Zone

theorem offsetAt_mem (z : Zone) (second : Int) : z.offsetAt second ∈ z.offsets := by
  unfold offsetAt offsets
  split
  · exact List.mem_singleton_self _
  · split
    · exact List.mem_cons_self
    · exact List.mem_cons_of_mem _ (List.mem_singleton_self _)

/-- **No clocks are a day off**, nor a second less. -/
theorem offsetAt_bounds {name : String} {z : Zone} (hz : find? name = some z) (second : Int) :
    -86399 < z.offsetAt second ∧ z.offsetAt second < 86399 := by
  have hall : ∀ z ∈ all, ∀ offset ∈ z.offsets, -86399 < offset ∧ offset < 86399 := by decide
  exact hall z (List.mem_of_find?_eq_some hz) _ (z.offsetAt_mem second)

end Zone

namespace Stamp

theorem second_le_of_le {s t : Stamp} (h : s ≤ t) : s.second ≤ t.second := by
  rw [le_def] at h
  omega

/-- A day earlier, except for the second that a stamp may take to leave a leap second. -/
theorem second_shift_negate_day (s : Stamp) :
    (s.shift (Span.days 1).negate).second ≤ s.second - 86399 := by
  have hnano := s.nano.isLt
  unfold shift
  have hwhole : (Span.days 1).negate.micros.tdiv 1000000 = -86400 := by decide
  have hpart : (Span.days 1).negate.micros.tmod 1000000 * 1000 = 0 := by decide
  rw [hwhole, hpart]
  split
  -- The stamp leaves its leap second through the end before it moves.
  · rw [if_neg (by omega), if_pos (by omega)]
    change s.second + 1 + -86400 + _ / 1000000000 ≤ _
    omega
  · rename_i hleap
    have hleap : s.nano.val < leapNano := Nat.lt_of_not_le fun h => hleap (decide_eq_true h)
    unfold leapNano at hleap
    change s.second + -86400 + _ / 1000000000 ≤ _
    omega

/-- A day later. -/
theorem le_second_shift_day (s : Stamp) : s.second + 86400 ≤ (s.shift (Span.days 1)).second := by
  unfold shift
  have hwhole : (Span.days 1).micros.tdiv 1000000 = 86400 := by decide
  have hpart : (Span.days 1).micros.tmod 1000000 * 1000 = 0 := by decide
  rw [hwhole, hpart]
  split
  · rename_i hleap
    have hleap : leapNano ≤ s.nano.val := of_decide_eq_true hleap
    unfold leapNano at hleap
    rw [if_pos (Or.inl (by decide))]
    change _ ≤ s.second + 86400 + _ / 1000000000
    omega
  · change _ ≤ s.second + 86400 + _ / 1000000000
    omega

end Stamp

/-- **What the clocks show in a window** they show at moments of the window that is a day wider. -/
theorem Window.contains_widen_of_toLocal {name : String} {z : Zone}
    (hz : Zone.find? name = some z) {w : Window} {s : Stamp}
    (h : w.contains (z.toLocal s) = true) : (w.widen (.days 1)).contains s = true := by
  obtain ⟨hbehind, hahead⟩ := Zone.offsetAt_bounds hz s.second
  obtain ⟨lower, upper⟩ := w
  unfold contains at h ⊢
  rw [Bool.and_eq_true] at h ⊢
  unfold widen
  obtain ⟨hlower, hupper⟩ := h
  constructor
  · cases lower with
    | none => rfl
    | some lower =>
      have hsecond : lower.second ≤ s.second + z.offsetAt s.second :=
        Stamp.second_le_of_le (of_decide_eq_true hlower)
      have hshift := lower.second_shift_negate_day
      refine decide_eq_true (Stamp.le_def.2 (Or.inl ?_))
      change (lower.shift _).second < s.second
      omega
  · cases upper with
    | none => rfl
    | some upper =>
      have hsecond : s.second + z.offsetAt s.second ≤ upper.second :=
        Stamp.second_le_of_le (of_decide_eq_true hupper)
      have hshift := upper.le_second_shift_day
      refine decide_eq_true (Stamp.le_def.2 (Or.inl ?_))
      change s.second < (upper.shift _).second
      omega

end SeriesAlgebra
