import SeriesAlgebra.Calendar.StampReading
import SeriesAlgebra.Calendar.Zone
import SeriesAlgebra.Window

/-!
# Whole microseconds

Away from leap seconds, the stamps that count whole microseconds are the integers:
their order is that of their numbers, a span is added to the number
(`Stamp.IsWhole.micros_shift`), and the distance of two is the difference
(`Stamp.IsWhole.microsBetween_eq`). What is read from a text counts whole seconds, so
it is whole unless it lies in a leap second (`Stamp.isWhole_of_parse`).
-/

namespace SeriesAlgebra

namespace Stamp

/-- **Whether a stamp counts whole microseconds**, and lies in no leap second. -/
def IsWhole (s : Stamp) : Prop := s.nano.val < leapNano ∧ 1000 ∣ s.nano.val

instance (s : Stamp) : Decidable s.IsWhole :=
  inferInstanceAs (Decidable (s.nano.val < leapNano ∧ 1000 ∣ s.nano.val))

/-- The microseconds from the start of 1970 to a stamp that counts whole ones. -/
def micros (s : Stamp) : Int := s.second * 1000000 + s.nano.val / 1000

variable {s t : Stamp}

namespace IsWhole

theorem isLeapSecond_eq (h : s.IsWhole) : s.isLeapSecond = false :=
  decide_eq_false (Nat.not_le.2 h.1)

theorem lt_iff (hs : s.IsWhole) (ht : t.IsWhole) : s < t ↔ s.micros < t.micros := by
  obtain ⟨hs, hs'⟩ := hs
  obtain ⟨ht, ht'⟩ := ht
  unfold leapNano at hs ht
  simp only [lt_def, Fin.lt_def, micros]
  omega

theorem le_iff (hs : s.IsWhole) (ht : t.IsWhole) : s ≤ t ↔ s.micros ≤ t.micros := by
  rw [← Stamp.not_lt, lt_iff ht hs]
  omega

theorem ofNanos {second nanos : Int} (h : 1000 ∣ nanos) : (ofNanos second nanos).IsWhole := by
  unfold Stamp.ofNanos IsWhole leapNano
  dsimp only
  omega

theorem micros_ofNanos {second nanos : Int} (h : 1000 ∣ nanos) :
    (Stamp.ofNanos second nanos).micros = second * 1000000 + nanos / 1000 := by
  unfold Stamp.ofNanos micros
  dsimp only
  omega

theorem shift_eq (h : s.IsWhole) (span : Span) : s.shift span =
    Stamp.ofNanos (s.second + span.micros.tdiv 1000000)
      (s.nano.val + span.micros.tmod 1000000 * 1000) := by
  unfold shift
  rw [h.isLeapSecond_eq]
  rfl

theorem dvd_shifted (h : s.IsWhole) (n : Int) : (1000 : Int) ∣ s.nano.val + n * 1000 := by
  obtain ⟨-, h⟩ := h
  omega

/-- A span leads from one whole stamp to another. -/
theorem shift (h : s.IsWhole) (span : Span) : (s.shift span).IsWhole := by
  rw [h.shift_eq]
  exact ofNanos (h.dvd_shifted _)

/-- **A span is added to the microseconds.** -/
theorem micros_shift (h : s.IsWhole) (span : Span) :
    (s.shift span).micros = s.micros + span.micros := by
  have hsplit := Int.tdiv_mul_add_tmod span.micros 1000000
  rw [h.shift_eq, micros_ofNanos (h.dvd_shifted _), micros]
  obtain ⟨-, hdvd⟩ := h
  omega

/-- **The distance of whole stamps** is the difference of their microseconds. -/
theorem microsBetween_eq (hs : s.IsWhole) (ht : t.IsWhole) :
    microsBetween s t = t.micros - s.micros := by
  unfold microsBetween micros
  rw [hs.isLeapSecond_eq, ht.isLeapSecond_eq]
  simp only [Bool.false_eq_true, and_false, if_false, Int.add_zero]
  obtain ⟨k, hk⟩ := hs.2
  obtain ⟨l, hl⟩ := ht.2
  have hproduct : (t.second - s.second) * 1000000000 + ((t.nano.val : Int) - s.nano.val) =
      ((t.second - s.second) * 1000000 + ((l : Int) - k)) * 1000 := by
    omega
  rw [hproduct, Int.mul_tdiv_cancel _ (by decide)]
  omega

/-- Outside leap seconds, a whole stamp is before others as its number is. -/
theorem le_iff_of_not_leap (hs : s.IsWhole) (ht : t.isLeapSecond = false) :
    s ≤ t ↔ s.micros ≤ t.micros := by
  obtain ⟨hs, hs'⟩ := hs
  have ht := Nat.not_le.1 (of_decide_eq_false ht)
  unfold leapNano at hs ht
  simp only [le_def, Fin.le_def, micros]
  omega

/-- The whole microseconds from a whole stamp to one after it. -/
theorem microsBetween_of_le (hs : s.IsWhole) (ht : t.isLeapSecond = false) (hle : s ≤ t) :
    microsBetween s t = t.micros - s.micros := by
  unfold microsBetween micros
  rw [hs.isLeapSecond_eq, ht]
  simp only [Bool.false_eq_true, and_false, if_false, Int.add_zero]
  obtain ⟨k, hk⟩ := hs.2
  simp only [le_def, Fin.le_def] at hle
  have ht := Nat.not_le.1 (of_decide_eq_false ht)
  have hs := hs.1
  unfold leapNano at hs ht
  rw [Int.tdiv_eq_ediv_of_nonneg (by omega)]
  omega

end IsWhole

/-! ### Stamps that are read -/

/-- A civil time counts whole seconds, or is a leap second. -/
theorem isWhole_of_ofFields? {f : Fields} (h : ofFields? f = some s)
    (hleap : s.isLeapSecond = false) : s.IsWhole := by
  unfold ofFields? at h
  dsimp only at h
  split at h
  · split at h
    · obtain rfl := Option.some.inj h
      cases hleap
    · obtain rfl := Option.some.inj h
      exact ⟨show 0 < 1000000000 by decide, show 1000 ∣ 0 from ⟨0, rfl⟩⟩
  · cases h

/-- **What a text stands for is whole**, unless it is a leap second. -/
theorem isWhole_of_parse {text : String} (h : parse text = .ok s)
    (hleap : s.isLeapSecond = false) : s.IsWhole := by
  unfold parse at h
  cases hread : read? text with
  | none =>
    rw [hread] at h
    cases h
  | some stamp =>
    rw [hread] at h
    obtain rfl := Except.ok.inj h
    unfold read? at hread
    obtain ⟨layout, -, hlayout⟩ := List.exists_of_findSome?_eq_some hread
    obtain ⟨f, -, hf⟩ := Option.bind_eq_some_iff.1 hlayout
    exact isWhole_of_ofFields? hf hleap

end Stamp

/-- Clocks of zones differ by whole seconds. -/
theorem Zone.isWhole_of_earliest? {z : Zone} {clock s : Stamp} (h : z.earliest? clock = some s)
    (hclock : clock.IsWhole) : s.IsWhole := by
  obtain ⟨offset, -, rfl⟩ := Option.map_eq_some_iff.1 h
  exact hclock

namespace Window

/-- Whether the ends of a window count whole microseconds. -/
def IsWhole (w : Window) : Prop := (∀ t ∈ w.lower, t.IsWhole) ∧ ∀ t ∈ w.upper, t.IsWhole

variable {v w : Window}

instance (w : Window) : Decidable w.IsWhole :=
  inferInstanceAs (Decidable ((∀ t ∈ w.lower, t.IsWhole) ∧ ∀ t ∈ w.upper, t.IsWhole))

theorem isWhole_unbounded : unbounded.IsWhole := ⟨nofun, nofun⟩

/-- What both bounds have, the tighter one has. -/
theorem forall_tighter {P : Stamp → Prop} {pick : Stamp → Stamp → Stamp}
    (hpick : ∀ a b, pick a b = a ∨ pick a b = b) {a b : Option Stamp} (ha : ∀ t ∈ a, P t)
    (hb : ∀ t ∈ b, P t) : ∀ t ∈ tighter pick a b, P t := by
  intro t ht
  cases a with
  | none => exact hb t ht
  | some a =>
    cases b with
    | none => exact ha t ht
    | some b =>
      obtain rfl := Option.some.inj ht
      rcases hpick a b with heq | heq
      · exact heq.symm ▸ ha a rfl
      · exact heq.symm ▸ hb b rfl

theorem max_eq_or (a b : Stamp) : max a b = a ∨ max a b = b := by
  change (if a ≤ b then b else a) = a ∨ (if a ≤ b then b else a) = b
  split
  · exact Or.inr rfl
  · exact Or.inl rfl

theorem min_eq_or (a b : Stamp) : min a b = a ∨ min a b = b := by
  change (if a ≤ b then a else b) = a ∨ (if a ≤ b then a else b) = b
  split
  · exact Or.inl rfl
  · exact Or.inr rfl

theorem IsWhole.intersect (hv : v.IsWhole) (hw : w.IsWhole) : (v.intersect w).IsWhole :=
  ⟨forall_tighter max_eq_or hv.1 hw.1, forall_tighter min_eq_or hv.2 hw.2⟩

theorem IsWhole.widen (h : w.IsWhole) (span : Span) : (w.widen span).IsWhole := by
  refine ⟨fun t ht => ?_, fun t ht => ?_⟩
  · obtain ⟨s, hs, rfl⟩ := Option.map_eq_some_iff.1 ht
    exact (h.1 s hs).shift _
  · obtain ⟨s, hs, rfl⟩ := Option.map_eq_some_iff.1 ht
    exact (h.2 s hs).shift _

end Window

end SeriesAlgebra
