import SeriesAlgebra.Calendar.Stamp

/-!
# Windows

A window is an interval of time with both ends included, either of which may be
open. Nothing forbids a lower end above the upper one; such a window is empty.
-/

namespace SeriesAlgebra

/-- The stamps from `lower` to `upper`, both included; an absent bound is no bound. -/
structure Window where
  lower : Option Stamp
  upper : Option Stamp
  deriving DecidableEq, Repr

namespace Window

/-- All of time. -/
def unbounded : Window := ⟨none, none⟩

instance : Inhabited Window := ⟨unbounded⟩

/-- Whether a stamp lies in the window. -/
def contains (w : Window) (t : Stamp) : Bool :=
  w.lower.all (fun lower => decide (lower ≤ t)) && w.upper.all fun upper => decide (t ≤ upper)

/-- Whether both ends are open. -/
def isUnbounded (w : Window) : Bool := w.lower.isNone && w.upper.isNone

/-- The tighter of two bounds. -/
def tighter (pick : Stamp → Stamp → Stamp) : Option Stamp → Option Stamp → Option Stamp
  | some a, some b => some (pick a b)
  | some a, none => some a
  | none, b => b

/-- The stamps of both windows: the later lower end and the earlier upper end count. -/
def intersect (v w : Window) : Window where
  lower := tighter max v.lower w.lower
  upper := tighter min v.upper w.upper

/-- The window with its ends moved apart by a span each. -/
def widen (w : Window) (span : Span) : Window where
  lower := w.lower.map (·.shift span.negate)
  upper := w.upper.map (·.shift span)

/-! ### Laws -/

@[simp] theorem contains_unbounded (t : Stamp) : unbounded.contains t = true := rfl

/-- A stamp lies in an intersection exactly if it lies in both windows. -/
theorem contains_intersect (v w : Window) (t : Stamp) :
    (v.intersect w).contains t = (v.contains t && w.contains t) := by
  have hmax : ∀ a b : Stamp, decide (max a b ≤ t) = (decide (a ≤ t) && decide (b ≤ t)) := by
    intro a b
    have h : (max a b ≤ t) ↔ a ≤ t ∧ b ≤ t := by
      change (if a ≤ b then b else a) ≤ t ↔ _
      split
      · rename_i hab
        exact ⟨fun hb => ⟨Stamp.le_trans hab hb, hb⟩, And.right⟩
      · rename_i hab
        have hba : b ≤ a := (Stamp.le_total a b).resolve_left hab
        exact ⟨fun ha => ⟨ha, Stamp.le_trans hba ha⟩, And.left⟩
    rw [← Bool.decide_and, decide_eq_decide]
    exact h
  have hmin : ∀ a b : Stamp, decide (t ≤ min a b) = (decide (t ≤ a) && decide (t ≤ b)) := by
    intro a b
    have h : (t ≤ min a b) ↔ t ≤ a ∧ t ≤ b := by
      change t ≤ (if a ≤ b then a else b) ↔ _
      split
      · rename_i hab
        exact ⟨fun ha => ⟨ha, Stamp.le_trans ha hab⟩, And.left⟩
      · rename_i hab
        have hba : b ≤ a := (Stamp.le_total a b).resolve_left hab
        exact ⟨fun hb => ⟨Stamp.le_trans hb hba, hb⟩, And.right⟩
    rw [← Bool.decide_and, decide_eq_decide]
    exact h
  obtain ⟨vl, vu⟩ := v
  obtain ⟨wl, wu⟩ := w
  cases vl <;> cases wl <;> cases vu <;> cases wu <;>
    simp [contains, intersect, tighter, hmax, hmin, Bool.and_assoc, Bool.and_comm,
      Bool.and_left_comm]

end Window

end SeriesAlgebra
