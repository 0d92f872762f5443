import Mathlib.Algebra.Order.Field.Power
import Mathlib.Tactic.Linarith
import Mathlib.Tactic.FieldSimp
import Mathlib.Tactic.Positivity
import Mathlib.Tactic.Ring
import SeriesAlgebra.Decimal.Reading

/-!
# Rounding a fraction to a double

The real numbers that round to a dyadic form an interval (`Dyadic.Rounds`), and
rounding is right on all of it: a fraction in the interval of a dyadic that is written
as doubles write them (`Dyadic.IsNormal`) has the bits of that dyadic
(`Dyadic.toBits_ofFraction`).

Rounding looks at the fraction in units of the power of two that its own size asks for.
That is the power of the dyadic, except at the lower end of a power of two, where it can
be one less, and then the mantissa is rounded up to `2 ^ 53`.
-/

namespace SeriesAlgebra

/-- A power as a fraction of natural powers. -/
theorem zpow_eq_div (b : ℚ) (e : Int) : b ^ e = b ^ e.toNat / b ^ (-e).toNat := by
  rcases Int.le_total 0 e with h | h
  · obtain ⟨n, rfl⟩ := Int.eq_ofNat_of_zero_le h
    simp
  · obtain ⟨n, hn⟩ := Int.eq_ofNat_of_zero_le (Int.neg_nonneg.2 h)
    obtain rfl : e = -(n : Int) := by omega
    simp

/-- The value of a decimal. -/
def Decimal.value (c : Decimal) : ℚ := c.digits * 10 ^ c.exponent

namespace Dyadic

/-- The value of a dyadic. -/
def value (d : Dyadic) : ℚ := d.mantissa * 2 ^ d.power

/-- Whether a dyadic is written as doubles write positive numbers: with a mantissa of 53 bits, or
of fewer if the power is the least one. -/
def IsNormal (d : Dyadic) : Prop :=
  0 < d.mantissa ∧ d.mantissa < 2 ^ 53 ∧ -1074 ≤ d.power ∧
    (2 ^ 52 ≤ d.mantissa ∨ d.power = -1074)

/-- How far below a dyadic the numbers that round to it go, in units of its power. -/
def below (d : Dyadic) : ℚ := if d.narrowBelow then 1 / 4 else 1 / 2

/-- **The numbers that round to a dyadic.** The ends of the interval belong to it if the mantissa
is even. -/
def Rounds (d : Dyadic) (v : ℚ) : Prop :=
  ((d.mantissa : ℚ) - d.below) * 2 ^ d.power ≤ v ∧ v ≤ (d.mantissa + 1 / 2) * 2 ^ d.power ∧
    (d.mantissa % 2 = 1 →
      ((d.mantissa : ℚ) - d.below) * 2 ^ d.power < v ∧ v < (d.mantissa + 1 / 2) * 2 ^ d.power)

theorem below_le (d : Dyadic) : d.below ≤ 1 / 2 := by
  unfold below
  split <;> norm_num

theorem below_pos (d : Dyadic) : 0 < d.below := by
  unfold below
  split <;> norm_num

theorem Rounds.pos {d : Dyadic} (hd : 0 < d.mantissa) {v : ℚ} (h : d.Rounds v) : 0 < v := by
  have hm : (1 : ℚ) ≤ d.mantissa := by exact_mod_cast hd
  have hb := d.below_le
  have hp : (0 : ℚ) < 2 ^ d.power := by positivity
  have : 0 < ((d.mantissa : ℚ) - d.below) * 2 ^ d.power := by
    apply mul_pos _ hp
    linarith
  exact lt_of_lt_of_le this h.1

/-! ### Rounding to a whole number -/

/-- A fraction within half of a whole number, or at half of an even one, is rounded to it. -/
theorem roundQuotient_eq {a b m : Nat} (hb : 0 < b) (hlow : 2 * (m * b) ≤ 2 * a + b)
    (hhigh : 2 * a ≤ 2 * (m * b) + b)
    (hodd : m % 2 = 1 → 2 * (m * b) < 2 * a + b ∧ 2 * a < 2 * (m * b) + b) :
    roundQuotient a b = m := by
  have hdiv : b * (a / b) + a % b = a := Nat.div_add_mod a b
  have hrest : a % b < b := Nat.mod_lt _ hb
  simp only [roundQuotient]
  generalize a / b = k at hdiv ⊢
  generalize a % b = r at hdiv hrest ⊢
  have hk : m = k ∨ m = k + 1 := by
    rcases Nat.lt_or_ge m k with hlt | hge
    · have : (m + 1) * b ≤ k * b := Nat.mul_le_mul_right b hlt
      rw [Nat.add_mul, Nat.mul_comm k b] at this
      omega
    · rcases Nat.lt_or_ge (k + 1) m with hlt | hle
      · have : (k + 2) * b ≤ m * b := Nat.mul_le_mul_right b hlt
        rw [Nat.add_mul, Nat.mul_comm k b] at this
        omega
      · omega
  rcases hk with rfl | rfl
  · rw [Nat.mul_comm m b] at *
    split
    · rfl
    · split <;> omega
  · rw [Nat.add_mul, Nat.mul_comm k b] at *
    split
    · omega
    · split <;> omega

/-! ### The unit -/

/-- Comparing two numbers scaled by a power of two. -/
theorem scaled_lt {a b : ℚ} (g : Int) :
    a * 2 ^ (-g).toNat < b * 2 ^ g.toNat ↔ a < b * 2 ^ g := by
  have hpos : (0 : ℚ) < 2 ^ (-g).toNat := by positivity
  rw [zpow_eq_div 2 g, ← mul_div_assoc, lt_div_iff₀ hpos]

/-- The unit is the one in which the fraction has 53 bits, unless that is too small. -/
theorem unitPower_spec {numerator denominator : Nat} (hn : 0 < numerator) (hd : 0 < denominator) :
    -1074 ≤ unitPower numerator denominator ∧
    (numerator : ℚ) / denominator < 2 ^ 53 * 2 ^ unitPower numerator denominator ∧
    (-1074 < unitPower numerator denominator →
      2 ^ 52 * 2 ^ unitPower numerator denominator ≤ (numerator : ℚ) / denominator) := by
  have hdq : (0 : ℚ) < denominator := by exact_mod_cast hd
  set v : ℚ := (numerator : ℚ) / denominator with hv
  -- The two logarithms place the fraction between two powers of two, one step of four apart.
  have hlow : (2 : ℚ) ^ ((numerator.log2 : Int) - denominator.log2 - 1) < v := by
    have h1 : (2 : ℚ) ^ numerator.log2 ≤ numerator := by exact_mod_cast Nat.log2_self_le hn.ne'
    have h2 : (denominator : ℚ) < 2 ^ (denominator.log2 + 1) := by
      exact_mod_cast Nat.lt_log2_self
    have h3 : (2 : ℚ) ^ ((numerator.log2 : Int) - denominator.log2 - 1) =
        2 ^ numerator.log2 / 2 ^ (denominator.log2 + 1) := by
      rw [show (numerator.log2 : Int) - denominator.log2 - 1 =
        (numerator.log2 : Int) - ((denominator.log2 + 1 : Nat) : Int) by push_cast; ring,
        zpow_sub₀ two_ne_zero, zpow_natCast, zpow_natCast]
    rw [h3, hv]
    calc (2 : ℚ) ^ numerator.log2 / 2 ^ (denominator.log2 + 1)
        < 2 ^ numerator.log2 / denominator := by
          apply div_lt_div_of_pos_left (by positivity) hdq h2
      _ ≤ numerator / denominator := by gcongr
  have hhigh : v < (2 : ℚ) ^ ((numerator.log2 : Int) - denominator.log2 + 1) := by
    have h1 : (numerator : ℚ) < 2 ^ (numerator.log2 + 1) := by exact_mod_cast Nat.lt_log2_self
    have h2 : (2 : ℚ) ^ denominator.log2 ≤ denominator := by
      exact_mod_cast Nat.log2_self_le hd.ne'
    have h3 : (2 : ℚ) ^ ((numerator.log2 : Int) - denominator.log2 + 1) =
        2 ^ (numerator.log2 + 1) / 2 ^ denominator.log2 := by
      rw [show (numerator.log2 : Int) - denominator.log2 + 1 =
        ((numerator.log2 + 1 : Nat) : Int) - denominator.log2 by push_cast; ring,
        zpow_sub₀ two_ne_zero, zpow_natCast, zpow_natCast]
    rw [h3, hv]
    calc (numerator : ℚ) / denominator < 2 ^ (numerator.log2 + 1) / denominator := by gcongr
      _ ≤ 2 ^ (numerator.log2 + 1) / 2 ^ denominator.log2 := by gcongr
  unfold unitPower
  set guess : Int := (numerator.log2 : Int) - denominator.log2 - 52 with hguess
  have hscaled : (numerator * 2 ^ (-guess).toNat < 2 ^ 52 * (denominator * 2 ^ guess.toNat)) ↔
      v < 2 ^ 52 * 2 ^ guess := by
    rw [hv, div_lt_iff₀ hdq, mul_right_comm, ← scaled_lt guess, mul_assoc]
    exact_mod_cast Iff.rfl
  have hlow' : (2 : ℚ) ^ 51 * 2 ^ guess < v := by
    rw [← zpow_natCast, ← zpow_add₀ two_ne_zero]
    convert hlow using 2
    push_cast
    omega
  have hhigh' : v < (2 : ℚ) ^ 53 * 2 ^ guess := by
    rw [← zpow_natCast, ← zpow_add₀ two_ne_zero]
    convert hhigh using 2
    push_cast
    omega
  have hstep : (2 : ℚ) ^ guess = 2 * 2 ^ (guess - 1) := by
    rw [zpow_sub_one₀ two_ne_zero]
    ring
  -- One comparison settles which of the two halves it is.
  obtain ⟨w, hw, hwlow, hwhigh⟩ : ∃ w : Int,
      (if numerator * 2 ^ (-guess).toNat < 2 ^ 52 * (denominator * 2 ^ guess.toNat)
        then guess - 1 else guess) = w ∧
      (2 : ℚ) ^ 52 * 2 ^ w ≤ v ∧ v < 2 ^ 53 * 2 ^ w := by
    by_cases h : numerator * 2 ^ (-guess).toNat < 2 ^ 52 * (denominator * 2 ^ guess.toNat)
    · refine ⟨guess - 1, if_pos h, ?_, ?_⟩
      · rw [hstep] at hlow'
        linarith
      · have := hscaled.1 h
        rw [hstep] at this
        linarith
    · exact ⟨guess, if_neg h, not_lt.1 fun h' => h (hscaled.2 h'), hhigh'⟩
  simp only [Nat.pow_eq, hw]
  rcases le_total (-1074) w with h | h
  · rw [max_eq_left h]
    exact ⟨h, hwhigh, fun _ => hwlow⟩
  · rw [max_eq_right h]
    refine ⟨le_refl _, lt_of_lt_of_le hwhigh ?_, fun h' => absurd h' (lt_irrefl _)⟩
    gcongr
    norm_num

/-! ### Rounding -/

/-- The fraction in units of a power, as it is rounded. -/
theorem scaled_div {numerator denominator : Nat} (u : Int) :
    ((numerator * 2 ^ (-u).toNat : Nat) : ℚ) / (denominator * 2 ^ u.toNat : Nat) =
      (numerator : ℚ) / denominator / 2 ^ u := by
  have hpos : (0 : ℚ) < 2 ^ (-u).toNat := by positivity
  rw [zpow_eq_div 2 u, Nat.cast_mul, Nat.cast_mul, Nat.cast_pow, Nat.cast_pow, Nat.cast_ofNat]
  field_simp

/-- Rounding in units of a power, with the fraction at most half a unit from a whole number. -/
theorem roundQuotient_scaled {numerator denominator m : Nat} (hd : 0 < denominator) (u : Int)
    (hlow : ((m : ℚ) - 1 / 2) * 2 ^ u ≤ (numerator : ℚ) / denominator)
    (hhigh : (numerator : ℚ) / denominator ≤ ((m : ℚ) + 1 / 2) * 2 ^ u)
    (hodd : m % 2 = 1 → ((m : ℚ) - 1 / 2) * 2 ^ u < (numerator : ℚ) / denominator ∧
      (numerator : ℚ) / denominator < ((m : ℚ) + 1 / 2) * 2 ^ u) :
    roundQuotient (numerator * 2 ^ (-u).toNat) (denominator * 2 ^ u.toNat) = m := by
  have hunit : (0 : ℚ) < 2 ^ u := by positivity
  set a := numerator * 2 ^ (-u).toNat with ha
  set b := denominator * 2 ^ u.toNat with hb
  have hbpos : 0 < b := Nat.mul_pos hd (by positivity)
  have hbq : (0 : ℚ) < b := by exact_mod_cast hbpos
  have hv : (numerator : ℚ) / denominator = a / b * 2 ^ u := by
    rw [ha, hb, scaled_div, div_mul_cancel₀ _ hunit.ne']
  rw [hv] at hlow hhigh hodd
  rw [mul_le_mul_iff_left₀ hunit] at hlow hhigh
  rw [mul_lt_mul_iff_left₀ hunit, mul_lt_mul_iff_left₀ hunit] at hodd
  rw [le_div_iff₀ hbq] at hlow
  rw [div_le_iff₀ hbq] at hhigh
  rw [lt_div_iff₀ hbq, div_lt_iff₀ hbq] at hodd
  apply roundQuotient_eq hbpos
  · have : (2 * (m * b) : ℚ) ≤ 2 * a + b := by linarith
    exact_mod_cast this
  · have : (2 * a : ℚ) ≤ 2 * (m * b) + b := by linarith
    exact_mod_cast this
  · intro h
    obtain ⟨h1, h2⟩ := hodd h
    constructor
    · have : (2 * (m * b) : ℚ) < 2 * a + b := by linarith
      exact_mod_cast this
    · have : (2 * a : ℚ) < 2 * (m * b) + b := by linarith
      exact_mod_cast this

/-- **What rounds to a dyadic is rounded to its bits.** -/
theorem toBits_ofFraction {d : Dyadic} (hd : d.IsNormal) {numerator denominator : Nat}
    (hdenominator : 0 < denominator) (h : d.Rounds ((numerator : ℚ) / denominator)) :
    (ofFraction numerator denominator).toBits = d.toBits := by
  obtain ⟨hm, hm53, hp, hnormal⟩ := hd
  have hv := h.pos hm
  have hnumerator : 0 < numerator := by
    rcases Nat.eq_zero_or_pos numerator with h0 | h0
    · simp [h0] at hv
    · exact h0
  obtain ⟨hu, huhigh, hulow⟩ := unitPower_spec hnumerator hdenominator
  obtain ⟨hlow, hhigh, hodd⟩ := h
  simp only [ofFraction]
  set u := unitPower numerator denominator with hudef
  have hunit : (0 : ℚ) < 2 ^ u := by positivity
  have hpower : (0 : ℚ) < 2 ^ d.power := by positivity
  have hm' : (d.mantissa : ℚ) + 1 ≤ 2 ^ 53 := by exact_mod_cast hm53
  rcases lt_trichotomy u d.power with hlt | heq | hgt
  · -- One unit less: the fraction is just below a power of two, and rounds up to it.
    have hnot : d.power ≠ -1074 := by omega
    have hm52 : 2 ^ 52 ≤ d.mantissa := hnormal.resolve_right hnot
    have hhalf : (2 : ℚ) ^ u * 2 ≤ 2 ^ d.power := by
      rw [← zpow_add_one₀ two_ne_zero]
      exact zpow_le_zpow_right₀ (by norm_num) (by omega)
    have hb := d.below_le
    have hmlow : ((d.mantissa : ℚ) - 1 / 2) * 2 ^ d.power < 2 ^ 52 * 2 ^ d.power := by
      have : ((d.mantissa : ℚ) - 1 / 2) * 2 ^ d.power ≤
          ((d.mantissa : ℚ) - d.below) * 2 ^ d.power := by gcongr
      linarith
    rw [mul_lt_mul_iff_left₀ hpower] at hmlow
    have hmeq : d.mantissa = 2 ^ 52 := by
      have : (d.mantissa : ℚ) < 2 ^ 52 + 1 := by linarith
      have : d.mantissa < 2 ^ 52 + 1 := by exact_mod_cast this
      omega
    have hbelow : d.below = 1 / 4 := by
      unfold below narrowBelow
      simp [hmeq, hnot]
    rw [hmeq, hbelow] at hlow
    have hueq : d.power = u + 1 := by
      by_contra hne
      have : (2 : ℚ) ^ u * 4 ≤ 2 ^ d.power := by
        calc (2 : ℚ) ^ u * 4 = 2 ^ (u + 2) := by rw [zpow_add₀ two_ne_zero]; norm_num
          _ ≤ 2 ^ d.power := zpow_le_zpow_right₀ (by norm_num) (by omega)
      push_cast at hlow
      linarith
    have hdouble : (2 : ℚ) ^ d.power = 2 * 2 ^ u := by
      rw [hueq, zpow_add_one₀ two_ne_zero, mul_comm]
    have hround : roundQuotient (numerator * 2 ^ (-u).toNat) (denominator * 2 ^ u.toNat) =
        2 ^ 53 := by
      apply roundQuotient_scaled hdenominator
      · rw [hdouble] at hlow
        push_cast at hlow ⊢
        linarith
      · push_cast
        linarith
      · intro h
        omega
    have hbits : (u + 1074).toNat * 2 ^ 52 + 2 ^ 53 = (u + 1 + 1074).toNat * 2 ^ 52 + 2 ^ 52 := by
      omega
    simp only [toBits, Nat.pow_eq]
    rw [hround, hmeq, hueq, hbits]
  · -- The same unit: the fraction is within half a unit of the mantissa.
    have hb := d.below_le
    have hround : roundQuotient (numerator * 2 ^ (-u).toNat) (denominator * 2 ^ u.toNat) =
        d.mantissa := by
      apply roundQuotient_scaled hdenominator
      · rw [heq]
        refine le_trans ?_ hlow
        gcongr
      · rw [heq]
        exact hhigh
      · intro h
        rw [heq]
        refine ⟨lt_of_le_of_lt ?_ (hodd h).1, (hodd h).2⟩
        gcongr
    simp only [toBits, Nat.pow_eq]
    rw [hround, heq]
  · -- One unit more would make the mantissa too large.
    exfalso
    have hdouble : (2 : ℚ) ^ d.power * 2 ≤ 2 ^ u := by
      rw [← zpow_add_one₀ two_ne_zero]
      exact zpow_le_zpow_right₀ (by norm_num) (by omega)
    have := hulow (by omega)
    have hle : ((d.mantissa : ℚ) + 1 / 2) * 2 ^ d.power < 2 ^ 53 * 2 ^ d.power := by
      gcongr
      linarith
    linarith

end Dyadic

end SeriesAlgebra
