import SeriesAlgebra.Proofs.Decimal.Rounding
import SeriesAlgebra.Proofs.Double

/-!
# The shortest decimal rounds back

The search for the shortest decimal compares whole multiples of a grid, and what it
finds lies in the interval of the dyadic (`Dyadic.rounds_iff`). It finds something: on
the grid of seventeen digits a step is less than twice as long as what is left of the
interval on the side of the nearer neighbour (`Dyadic.exists_neighbour`).

Main statement: the shortest decimal of a positive dyadic that is written as doubles
write them rounds to it (`Dyadic.shortest_rounds`).
-/

namespace SeriesAlgebra

namespace Dyadic

/-! ### Grids -/

theorem unit_pos (d : Dyadic) (e : Int) : 0 < (d.grid e).unit := by
  simp only [grid, Nat.pow_eq]
  positivity

theorem step_pos (d : Dyadic) (e : Int) : 0 < (d.grid e).step := by
  simp only [grid, Nat.pow_eq]
  positivity

/-- A step in units of the grid. -/
theorem step_div_unit (d : Dyadic) (e : Int) :
    ((d.grid e).step : ℚ) / (d.grid e).unit * 2 ^ (d.power - 2) = 10 ^ e := by
  have htwo : (2 : ℚ) ^ (d.power - 2) = 2 ^ (d.power - 2).toNat / 2 ^ (2 - d.power).toNat := by
    rw [zpow_eq_div 2 (d.power - 2), Int.neg_sub]
  rw [htwo, zpow_eq_div 10 e]
  simp only [grid, Nat.pow_eq, Nat.cast_mul, Nat.cast_pow, Nat.cast_ofNat]
  field_simp

/-- Comparing a number of units with a number of steps. -/
theorem units_le_steps (d : Dyadic) (e : Int) (a count : Nat) :
    a * (d.grid e).unit ≤ count * (d.grid e).step ↔
      (a : ℚ) * 2 ^ (d.power - 2) ≤ count * 10 ^ e := by
  have hunit : (0 : ℚ) < (d.grid e).unit := by exact_mod_cast d.unit_pos e
  have hpower : (0 : ℚ) < 2 ^ (d.power - 2) := by positivity
  rw [← d.step_div_unit e, ← mul_assoc, mul_le_mul_iff_left₀ hpower, ← mul_div_assoc,
    le_div_iff₀ hunit]
  exact_mod_cast Iff.rfl

theorem steps_le_units (d : Dyadic) (e : Int) (a count : Nat) :
    count * (d.grid e).step ≤ a * (d.grid e).unit ↔
      (count : ℚ) * 10 ^ e ≤ a * 2 ^ (d.power - 2) := by
  have hunit : (0 : ℚ) < (d.grid e).unit := by exact_mod_cast d.unit_pos e
  have hpower : (0 : ℚ) < 2 ^ (d.power - 2) := by positivity
  rw [← d.step_div_unit e, ← mul_assoc, mul_le_mul_iff_left₀ hpower, ← mul_div_assoc,
    div_le_iff₀ hunit]
  exact_mod_cast Iff.rfl

theorem quarter (d : Dyadic) : (2 : ℚ) ^ d.power = 4 * 2 ^ (d.power - 2) := by
  rw [zpow_sub₀ two_ne_zero]
  norm_num
  ring

/-- **The test for rounding is right.** -/
theorem rounds_iff {d : Dyadic} (hd : 0 < d.mantissa) (e : Int) (count : Nat) :
    d.rounds (d.grid e) count = true ↔ d.Rounds (count * 10 ^ e) := by
  have hlow : (((4 * d.mantissa - if d.narrowBelow then 1 else 2 : Nat) : ℚ) * 2 ^ (d.power - 2)) =
      ((d.mantissa : ℚ) - d.below) * 2 ^ d.power := by
    rw [quarter, below]
    split
    · rw [Nat.cast_sub (by omega)]
      push_cast
      ring
    · rw [Nat.cast_sub (by omega)]
      push_cast
      ring
  have hhigh : (((4 * d.mantissa + 2 : Nat) : ℚ) * 2 ^ (d.power - 2)) =
      ((d.mantissa : ℚ) + 1 / 2) * 2 ^ d.power := by
    rw [quarter]
    push_cast
    ring
  simp only [rounds, Rounds, ← hlow, ← hhigh]
  split
  · rename_i heven
    rw [Bool.and_eq_true, decide_eq_true_iff, decide_eq_true_iff, units_le_steps, steps_le_units]
    constructor
    · rintro ⟨h1, h2⟩
      exact ⟨h1, h2, fun hodd => by omega⟩
    · rintro ⟨h1, h2, -⟩
      exact ⟨h1, h2⟩
  · rename_i hodd
    rw [Bool.and_eq_true, decide_eq_true_iff, decide_eq_true_iff, ← not_le, ← not_le,
      steps_le_units, units_le_steps, not_le, not_le]
    constructor
    · rintro ⟨h1, h2⟩
      exact ⟨h1.le, h2.le, fun _ => ⟨h1, h2⟩⟩
    · rintro ⟨-, -, h⟩
      exact h (by omega)

/-! ### The leading digit -/

theorem lt_pow_digitCount (n : Nat) : n < 10 ^ digitCount n :=
  (Nat.length_toDigits_le_iff (by norm_num) Nat.length_toDigits_pos).1 (le_refl _)

theorem pow_digitCount_le {n : Nat} (h : 0 < n) : 10 ^ (digitCount n - 1) ≤ n := by
  rcases Nat.eq_zero_or_pos (digitCount n - 1) with h0 | h0
  · rw [h0]
    omega
  · by_contra hlt
    have := (Nat.length_toDigits_le_iff (by norm_num) h0).2 (not_le.1 hlt)
    change digitCount n ≤ digitCount n - 1 at this
    omega

theorem value_eq_div (d : Dyadic) :
    d.value = ((d.mantissa * 2 ^ d.power.toNat : Nat) : ℚ) / (2 ^ (-d.power).toNat : Nat) := by
  rw [value, zpow_eq_div 2 d.power]
  push_cast
  ring

/-- The leading digit of a positive value stands for no more than the value. -/
theorem leadingExponent_le {d : Dyadic} (hd : 0 < d.mantissa) :
    (10 : ℚ) ^ d.leadingExponent ≤ d.value := by
  rw [value_eq_div]
  simp only [leadingExponent, Nat.pow_eq]
  set numerator := d.mantissa * 2 ^ d.power.toNat
  set denominator := 2 ^ (-d.power).toNat
  have hn : 0 < numerator := Nat.mul_pos hd (by positivity)
  have hdpos : 0 < denominator := by positivity
  have hdq : (0 : ℚ) < denominator := by exact_mod_cast hdpos
  rw [le_div_iff₀ hdq]
  split
  · rename_i hle
    have hquot : 0 < numerator / denominator := Nat.div_pos hle hdpos
    have hpow := pow_digitCount_le hquot
    have hcast : ((digitCount (numerator / denominator) : Int) - 1) =
        ((digitCount (numerator / denominator) - 1 : Nat) : Int) := by
      have : 0 < digitCount (numerator / denominator) := Nat.length_toDigits_pos
      omega
    rw [hcast, zpow_natCast]
    have : 10 ^ (digitCount (numerator / denominator) - 1) * denominator ≤ numerator :=
      le_trans (Nat.mul_le_mul_right _ hpow) (Nat.div_mul_le_self _ _)
    exact_mod_cast this
  · rename_i hlt
    set n := (denominator - 1) / numerator
    have hpow := lt_pow_digitCount n
    have hmul : denominator ≤ numerator * 10 ^ digitCount n := by
      have h1 : denominator - 1 < numerator * (n + 1) := Nat.lt_mul_div_succ _ hn
      have h2 : numerator * (n + 1) ≤ numerator * 10 ^ digitCount n :=
        Nat.mul_le_mul_left _ hpow
      omega
    rw [zpow_neg, zpow_natCast, inv_mul_le_iff₀ (by positivity), mul_comm]
    exact_mod_cast hmul

/-! ### Seventeen digits are enough -/

/-- With seventeen digits one of the two neighbours rounds back. -/
theorem exists_neighbour {d : Dyadic} (hd : d.IsNormal) {e : Int}
    (he : (10 : ℚ) ^ e * 10 ^ 16 ≤ d.value) {below : Nat} (hbelow : below * (10 : ℚ) ^ e ≤ d.value)
    (habove : d.value < (below + 1) * (10 : ℚ) ^ e) :
    d.Rounds (below * 10 ^ e) ∨ d.Rounds ((below + 1 : Nat) * 10 ^ e) := by
  obtain ⟨hm, hm53, hp, hnormal⟩ := hd
  have hpower : (0 : ℚ) < 2 ^ d.power := by positivity
  have hm' : (d.mantissa : ℚ) < 2 ^ 53 := by exact_mod_cast hm53
  have hbpos := d.below_pos
  -- Half a step is less than the room below, which is smaller only at a power of two.
  have hstep : (10 : ℚ) ^ e * 10 ^ 16 ≤ d.mantissa * 2 ^ d.power := he
  have hhalf : (10 : ℚ) ^ e < 2 * d.below * 2 ^ d.power := by
    unfold Dyadic.below
    split
    · rename_i hnarrow
      have hmeq : d.mantissa = 2 ^ 52 := by
        simp only [narrowBelow, Bool.and_eq_true, decide_eq_true_eq] at hnarrow
        exact hnarrow.1
      rw [hmeq] at hstep
      push_cast at hstep
      linarith
    · have : (d.mantissa : ℚ) * 2 ^ d.power < 2 ^ 53 * 2 ^ d.power := by gcongr
      linarith
  have hroom := d.below_le
  have hwide : 2 * d.below * 2 ^ d.power ≤ 1 * 2 ^ d.power := by
    gcongr
    linarith
  have hvalue : d.value = d.mantissa * 2 ^ d.power := rfl
  rcases le_total (d.value - below * (10 : ℚ) ^ e) (10 ^ e / 2) with hnear | hfar
  · left
    have hlow : ((d.mantissa : ℚ) - d.below) * 2 ^ d.power < below * 10 ^ e := by linarith
    have hhigh : (below : ℚ) * 10 ^ e < (d.mantissa + 1 / 2) * 2 ^ d.power := by linarith
    exact ⟨hlow.le, hhigh.le, fun _ => ⟨hlow, hhigh⟩⟩
  · right
    have hpos : 0 < d.below * 2 ^ d.power := mul_pos hbpos hpower
    have hlow : ((d.mantissa : ℚ) - d.below) * 2 ^ d.power < (below + 1 : Nat) * 10 ^ e := by
      push_cast
      linarith
    have hhigh : ((below + 1 : Nat) : ℚ) * 10 ^ e < (d.mantissa + 1 / 2) * 2 ^ d.power := by
      push_cast
      linarith
    exact ⟨hlow.le, hhigh.le, fun _ => ⟨hlow, hhigh⟩⟩

/-! ### The search -/

/-- A neighbour that is found rounds back. -/
theorem neighbour?_rounds {d : Dyadic} (hd : 0 < d.mantissa) {tie : Tie} {places : Nat}
    {c : Decimal} (h : d.neighbour? tie places = some c) : d.Rounds c.value := by
  simp only [neighbour?] at h
  split at h
  · rename_i hbelow habove
    obtain rfl := Option.some.inj h
    simp only [Decimal.value]
    split
    · exact (rounds_iff hd _ _).1 hbelow
    · exact (rounds_iff hd _ _).1 habove
  · rename_i hbelow _
    obtain rfl := Option.some.inj h
    exact (rounds_iff hd _ _).1 hbelow
  · rename_i _ habove
    obtain rfl := Option.some.inj h
    exact (rounds_iff hd _ _).1 habove
  · cases h

/-- With seventeen digits there is a neighbour. -/
theorem neighbour?_seventeen {d : Dyadic} (hd : d.IsNormal) (tie : Tie) :
    (d.neighbour? tie 17).isSome := by
  have hm := hd.1
  simp only [neighbour?]
  set e : Int := d.leadingExponent - ((17 - 1 : Nat) : Int) with he
  have hfine : (10 : ℚ) ^ e * 10 ^ 16 ≤ d.value := by
    have : (10 : ℚ) ^ e * 10 ^ 16 = 10 ^ d.leadingExponent := by
      rw [he, ← zpow_natCast (10 : ℚ) 16, ← zpow_add₀ (by norm_num)]
      congr 1
      push_cast
      ring
    rw [this]
    exact leadingExponent_le hm
  set below := 4 * d.mantissa * (d.grid e).unit / (d.grid e).step
  have hvalue : ((4 * d.mantissa : Nat) : ℚ) * 2 ^ (d.power - 2) = d.value := by
    rw [value, quarter]
    push_cast
    ring
  have hbelow : below * (10 : ℚ) ^ e ≤ d.value := by
    rw [← hvalue, ← steps_le_units]
    exact Nat.div_mul_le_self _ _
  have habove : d.value < (below + 1) * (10 : ℚ) ^ e := by
    rw [← hvalue, ← not_le]
    intro hle
    have h := (d.steps_le_units e (4 * d.mantissa) (below + 1)).2 (by push_cast at hle ⊢; exact hle)
    have hlt : 4 * d.mantissa * (d.grid e).unit < (d.grid e).step * (below + 1) :=
      Nat.lt_mul_div_succ _ (d.step_pos e)
    rw [Nat.mul_comm (d.grid e).step] at hlt
    exact absurd h (not_le.2 hlt)
  rcases exists_neighbour hd hfine hbelow habove with h | h
  · rw [(rounds_iff hm _ _).2 h]
    cases d.rounds (d.grid e) (below + 1) <;> rfl
  · rw [(rounds_iff hm _ _).2 h]
    cases d.rounds (d.grid e) below <;> rfl

/-- **The shortest decimal rounds back.** -/
theorem shortest_rounds {d : Dyadic} (hd : d.IsNormal) (tie : Tie) :
    d.Rounds (d.shortest tie).value := by
  have hm := hd.1
  simp only [shortest, if_neg hm.ne']
  cases hfound : (List.range' 1 17).findSome? (d.neighbour? tie) with
  | some c =>
    obtain ⟨places, -, h⟩ := List.exists_of_findSome?_eq_some hfound
    exact neighbour?_rounds hm h
  | none =>
    have hnone := List.findSome?_eq_none_iff.1 hfound 17
      (List.mem_range'.2 ⟨16, by omega, rfl⟩)
    have := neighbour?_seventeen hd tie
    rw [hnone] at this
    cases this

/-! ### Doubles -/

/-- The magnitude of a double that is not zero is written as doubles are written. -/
theorem isNormal_ofFloat {x : Float} (h : 0 < (ofFloat x).mantissa) : (ofFloat x).IsNormal := by
  simp only [ofFloat, Nat.pow_eq] at h ⊢
  split
  · rename_i hzero
    rw [if_pos hzero] at h
    exact ⟨h, by dsimp only; omega, by simp, Or.inr rfl⟩
  · refine ⟨?_, ?_, ?_, Or.inl ?_⟩ <;> dsimp only <;> omega

/-- The bits of the magnitude of a finite double are its own, sign aside. -/
theorem toBits_ofFloat {x : Float} (hn : x.isNaN = false) (hi : x.isInf = false) :
    (ofFloat x).toBits = x.toBits.toNat % 2 ^ 63 := by
  have hfield := Double.field_lt hn hi
  simp only [ofFloat, toBits, infiniteBits, Nat.pow_eq]
  split
  · rw [Nat.min_eq_right] <;> dsimp only <;> omega
  · rw [Nat.min_eq_right] <;> dsimp only <;> omega

end Dyadic

end SeriesAlgebra
