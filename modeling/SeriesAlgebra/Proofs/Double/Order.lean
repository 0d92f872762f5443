import Mathlib
import SeriesAlgebra.Proofs.Double

/-!
# Doubles in order

Doubles that are numbers stand in a row: by sign, then by exponent, then by fraction
(`Double.rank`). One is less than another just if it stands before it (`Double.lt_iff`), so
that comparing them is comparing in a linear order, in which zeros of both signs stand at one
place; the missing value is less than nothing and nothing is less than it.

Adding a number to the negative zero gives the number (`Double.negZero_add`), so a sum that
starts there is the sum of its terms alone.
-/

namespace SeriesAlgebra

namespace Double

open Float.Model
open Float.Model.UnpackedFloat

/-! ### Comparing -/

/-- Where a double stands among the others, if it is a number. -/
def rank : UnpackedFloat → ℤ ×ₗ ℤ ×ₗ ℤ
  | .infinity .positive => toLex (2, toLex (0, 0))
  | .finite .positive m e _ => toLex (1, toLex (e, (m : ℤ)))
  | .finite .negative m e _ => toLex (-1, toLex (-e, -(m : ℤ)))
  | .infinity .negative => toLex (-2, toLex (0, 0))
  | _ => toLex (0, toLex (0, 0))

theorem compare_eq_lt_iff {u v : UnpackedFloat} (hu : u ≠ .notANumber) (hv : v ≠ .notANumber) :
    u.compare v = some .lt ↔ rank u < rank v := by
  have hlex (e e' : Int) (m m' : Nat) :
      (compare e e').then (compare m m') = .lt ↔ e < e' ∨ e = e' ∧ m < m' := by
    rw [Ordering.then_eq_lt, Int.compare_eq_lt, Int.compare_eq_eq, Nat.compare_eq_lt]
  have hgt (e e' : Int) (m m' : Nat) :
      (compare e e').then (compare m m') = .gt ↔ e' < e ∨ e = e' ∧ m' < m := by
    rw [Ordering.then_eq_gt, Int.compare_eq_gt, Int.compare_eq_eq, Nat.compare_eq_gt]
  cases u with
  | notANumber => exact absurd rfl hu
  | infinity s =>
    cases v with
    | notANumber => exact absurd rfl hv
    | infinity s' => cases s <;> cases s' <;> simp [UnpackedFloat.compare, rank] <;> decide
    | zero s' => cases s <;> simp [UnpackedFloat.compare, rank, Prod.Lex.lt_iff]
    | finite s' => cases s <;> cases s' <;> simp [UnpackedFloat.compare, rank, Prod.Lex.lt_iff]
  | zero s =>
    cases v with
    | notANumber => exact absurd rfl hv
    | infinity s' => cases s' <;> simp [UnpackedFloat.compare, rank, Prod.Lex.lt_iff]
    | zero s' => simp [UnpackedFloat.compare, rank]
    | finite s' => cases s' <;> simp [UnpackedFloat.compare, rank, Prod.Lex.lt_iff]
  | finite s m e =>
    cases v with
    | notANumber => exact absurd rfl hv
    | infinity s' => cases s <;> cases s' <;> simp [UnpackedFloat.compare, rank, Prod.Lex.lt_iff]
    | zero s' => cases s <;> simp [UnpackedFloat.compare, rank, Prod.Lex.lt_iff]
    | finite s' m' e' =>
      -- Of numbers with one sign, the exponent counts first.
      cases s <;> cases s'
      · change some ((compare e e').then (compare m m')).swap = some .lt ↔ _
        rw [Option.some_inj, Ordering.swap_eq_lt, hgt]
        simp [rank, Prod.Lex.lt_iff]
      · simp [UnpackedFloat.compare, rank, Prod.Lex.lt_iff]
      · simp [UnpackedFloat.compare, rank, Prod.Lex.lt_iff]
      · change some ((compare e e').then (compare m m')) = some .lt ↔ _
        rw [Option.some_inj, hlex]
        simp [rank, Prod.Lex.lt_iff]

variable {x y z : Float}

theorem lt_iff_compare : x < y ↔ x.toModel.unpack.compare y.toModel.unpack = some .lt := by
  change decide (x.toModel < y.toModel) = true ↔ _
  rw [decide_eq_true_iff]
  exact beq_iff_eq

theorem unpack_ne_notANumber (h : x.isNaN = false) : x.toModel.unpack ≠ .notANumber := by
  intro hu
  have hnan : x.toModel.unpack.isNaN = false := h
  rw [hu] at hnan
  cases hnan

/-- **A number is less than another** just if it stands before it. -/
theorem lt_iff (hx : x.isNaN = false) (hy : y.isNaN = false) :
    x < y ↔ rank x.toModel.unpack < rank y.toModel.unpack :=
  lt_iff_compare.trans (compare_eq_lt_iff (unpack_ne_notANumber hx) (unpack_ne_notANumber hy))

theorem not_missing_lt (y : Float) : ¬ missing < y := by
  rw [lt_iff_compare, unpack_missing]
  cases y.toModel.unpack <;> exact nofun

theorem not_lt_missing (x : Float) : ¬ x < missing := by
  rw [lt_iff_compare, unpack_missing]
  cases x.toModel.unpack <;> exact nofun

theorem not_lt_of_lt (hx : x.isNaN = false) (hy : y.isNaN = false) (h : x < y) : ¬ y < x := by
  rw [lt_iff hx hy] at h
  rw [lt_iff hy hx]
  exact lt_asymm h

/-- A number that is not below a second one, which is not below a third, is not below that. -/
theorem not_lt_trans (hx : x.isNaN = false) (hy : y.isNaN = false) (hz : z.isNaN = false)
    (hxy : ¬ x < y) (hyz : ¬ y < z) : ¬ x < z := by
  rw [lt_iff hx hy, not_lt] at hxy
  rw [lt_iff hy hz, not_lt] at hyz
  rw [lt_iff hx hz, not_lt]
  exact hyz.trans hxy

/-! ### Adding to zero -/

/-- **The negative zero adds nothing.** -/
theorem negZero_add (x : Float) : -0.0 + x = x := by
  have hbits : (-0.0 : Float).toBits.toBitVec = packedZero Format.binary64 .negative := by
    decide +kernel
  have hzero : (-0.0 : Float).toModel.unpack = .zero .negative := by
    change unpack Format.binary64 (-0.0 : Float).toBits.toBitVec = _
    rw [hbits, unpack_packedZero]
  have hadd (u : UnpackedFloat) : UnpackedFloat.add Format.binary64 (.zero .negative) u = u := by
    cases u with
    | zero s => cases s <;> rfl
    | _ => rfl
  change Float.ofModel (Float.Model.pack (UnpackedFloat.add Format.binary64
    (-0.0 : Float).toModel.unpack x.toModel.unpack)) = x
  rw [hzero, hadd]
  exact Float.ofBits_toBits x

end Double

end SeriesAlgebra
