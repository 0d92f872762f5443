import Mathlib.Algebra.Group.Nat.Defs
import SeriesAlgebra.Series.Basic

/-!
# Doubles as bits

A double is its sixty-four bits: a sign, a field of eleven bits for the exponent and a
fraction of fifty-two. There is one double for all that is no number, so that a missing
value is always `missing`.

Main statements: a missing operand makes the result of arithmetic missing
(`isNaN_apply_left`, `isNaN_apply_right`), and a finite double is its magnitude with
its sign (`signed_magnitude`).
-/

namespace SeriesAlgebra

namespace Double

open Float.Model
open Float.Model.UnpackedFloat

/-! ### Missing values -/

theorem unpack_of_isNaN {x : Float} (h : x.isNaN = true) : x.toModel.unpack = .notANumber := by
  have h' : x.toModel.unpack.isNaN = true := h
  cases hu : x.toModel.unpack with
  | notANumber => rfl
  | _ =>
    rw [hu] at h'
    cases h'

theorem fields_of_unpack_notANumber {b : BitVec Format.binary64.numBits}
    (h : unpack Format.binary64 b = .notANumber) :
    unpackExponent b = (-1#_) ∧ unpackMantissa b ≠ 0#_ := by
  have hunpack : ∀ z : UnpackedFloat, unpack Format.binary64 b = z → z.isNaN = true := by
    rintro z rfl
    rw [h]
    rfl
  by_cases hfield : unpackExponent b = (-1#_)
  · refine ⟨hfield, fun hfraction => ?_⟩
    exact absurd (hunpack _ ((if_pos hfield).trans (if_pos hfraction))) Bool.false_ne_true
  · by_cases hzero : unpackExponent b = 0#_
    · by_cases hfraction : unpackMantissa b = 0#_
      · exact absurd (hunpack _ ((if_neg hfield).trans ((if_pos hzero).trans (dif_pos hfraction))))
          Bool.false_ne_true
      · exact absurd (hunpack _ ((if_neg hfield).trans ((if_pos hzero).trans (dif_neg hfraction))))
          Bool.false_ne_true
    · exact absurd (hunpack _ ((if_neg hfield).trans (if_neg hzero))) Bool.false_ne_true

theorem ext_bits {x y : Float} (h : x.toBits = y.toBits) : x = y := by
  obtain ⟨⟨b, _⟩⟩ := x
  obtain ⟨⟨c, _⟩⟩ := y
  have : b = c := h
  subst this
  rfl

instance decidableEqFloat : DecidableEq Float := fun x y =>
  decidable_of_iff (x.toBits = y.toBits) ⟨ext_bits, congrArg Float.toBits⟩

/-- **There is one missing value.** -/
theorem eq_missing {x : Float} (h : x.isNaN = true) : x = missing := by
  obtain ⟨hfield, hfraction⟩ := fields_of_unpack_notANumber (unpack_of_isNaN h)
  have hx := x.toModel.valid.eq_packedNaN hfield hfraction
  have hmissing : missing.toModel.toBits.toBitVec = packedNaN Format.binary64 := by decide +kernel
  exact ext_bits (UInt64.toBitVec_inj.1 (hx.trans hmissing.symm))

@[simp] theorem isNaN_missing : missing.isNaN = true := by decide +kernel

/-- Only the missing value is not equal to itself. -/
theorem beq_self {x : Float} (h : x.isNaN = false) : (x == x) = true := by
  have h' : x.toModel.unpack.isNaN = false := h
  change (x.toModel.unpack.compare x.toModel.unpack == some .eq) = true
  cases hu : x.toModel.unpack with
  | notANumber =>
    rw [hu] at h'
    cases h'
  | infinity s => cases s <;> rfl
  | zero s => rfl
  | finite s m e _ =>
    have hself : (compare e e).then (compare m m) = .eq := by simp
    cases s with
    | positive =>
      change (some ((compare e e).then (compare m m)) == some .eq) = true
      rw [hself]; rfl
    | negative =>
      change (some ((compare e e).then (compare m m)).swap == some .eq) = true
      rw [hself]; rfl

theorem unpack_missing : missing.toModel.unpack = .notANumber := unpack_of_isNaN isNaN_missing

/-- The missing value is equal to nothing. -/
theorem missing_beq (x : Float) : (missing == x) = false := by
  change (missing.toModel.unpack.compare x.toModel.unpack == some .eq) = false
  rw [unpack_missing]
  cases x.toModel.unpack <;> rfl

/-- A double as it counts in comparisons: zero has no sign. -/
def comparand : UnpackedFloat → UnpackedFloat
  | .zero _ => .zero .positive
  | u => u

theorem compare_eq_iff {u v : UnpackedFloat} :
    u.compare v = some .eq ↔ u ≠ .notANumber ∧ comparand u = comparand v := by
  have hcompare (e e' : Int) (m m' : Nat) :
      (compare e e').then (compare m m') = .eq ↔ e = e' ∧ m = m' := by
    rw [Ordering.then_eq_eq, Int.compare_eq_eq, Nat.compare_eq_eq]
  cases u with
  | notANumber => exact iff_of_false (Option.some_ne_none _ ·.symm) (·.1 rfl)
  | infinity s =>
    cases v with
    | infinity s' =>
      cases s <;> cases s'
      · exact iff_of_true rfl ⟨UnpackedFloat.noConfusion, rfl⟩
      · exact iff_of_false (by rintro ⟨⟩) (by rintro ⟨-, ⟨⟩⟩)
      · exact iff_of_false (by rintro ⟨⟩) (by rintro ⟨-, ⟨⟩⟩)
      · exact iff_of_true rfl ⟨UnpackedFloat.noConfusion, rfl⟩
    | _ => cases s <;> exact iff_of_false (by rintro ⟨⟩) (by rintro ⟨-, ⟨⟩⟩)
  | zero s =>
    cases v with
    | zero s' => exact iff_of_true rfl ⟨UnpackedFloat.noConfusion, rfl⟩
    | notANumber => exact iff_of_false (by rintro ⟨⟩) (by rintro ⟨-, ⟨⟩⟩)
    | infinity s' => cases s' <;> exact iff_of_false (by rintro ⟨⟩) (by rintro ⟨-, ⟨⟩⟩)
    | finite s' => cases s' <;> exact iff_of_false (by rintro ⟨⟩) (by rintro ⟨-, ⟨⟩⟩)
  | finite s m e h =>
    cases v with
    | notANumber => exact iff_of_false (by rintro ⟨⟩) (by rintro ⟨-, ⟨⟩⟩)
    | infinity s' => cases s' <;> cases s <;> exact iff_of_false (by rintro ⟨⟩) (by rintro ⟨-, ⟨⟩⟩)
    | zero s' => cases s <;> exact iff_of_false (by rintro ⟨⟩) (by rintro ⟨-, ⟨⟩⟩)
    | finite s' m' e' h' =>
      refine Iff.trans ?_ (and_iff_right UnpackedFloat.noConfusion).symm
      change _ ↔ UnpackedFloat.finite s m e h = .finite s' m' e' h'
      rw [UnpackedFloat.finite.injEq]
      cases s <;> cases s'
      · change some ((compare e e').then (compare m m')).swap = some .eq ↔ _
        simp [hcompare, and_comm]
      · exact iff_of_false (by rintro ⟨⟩) (by rintro ⟨⟨⟩, -⟩)
      · exact iff_of_false (by rintro ⟨⟩) (by rintro ⟨⟨⟩, -⟩)
      · change some ((compare e e').then (compare m m')) = some .eq ↔ _
        simp [hcompare, and_comm]

/-- **Doubles are equal** if they count the same in comparisons and there is one of them. -/
theorem beq_iff {x y : Float} : (x == y) = true ↔
    x.isNaN = false ∧ comparand x.toModel.unpack = comparand y.toModel.unpack := by
  have hNaN : x.toModel.unpack ≠ .notANumber ↔ x.isNaN = false := by
    rw [← Bool.not_eq_true]
    refine not_congr ⟨fun h => ?_, unpack_of_isNaN⟩
    change x.toModel.unpack.isNaN = true
    rw [h]
    rfl
  change (x.toModel.unpack.compare y.toModel.unpack == some .eq) = true ↔ _
  rw [beq_iff_eq, compare_eq_iff, hNaN]

theorem isNaN_pack_notANumber : (Float.ofModel (Float.Model.pack .notANumber)).isNaN = true := by
  decide +kernel

/-- Arithmetic with a missing first operand gives a missing value. -/
theorem isNaN_apply_left (op : Arithmetic) {x : Float} (h : x.isNaN = true) (y : Float) :
    (op.apply x y).isNaN = true := by
  have hx := unpack_of_isNaN h
  have key : ∀ z : UnpackedFloat, z = .notANumber →
      (Float.ofModel (Float.Model.pack z)).isNaN = true := fun z hz => hz ▸ isNaN_pack_notANumber
  cases op with
  | add =>
    refine key (UnpackedFloat.add Format.binary64 x.toModel.unpack y.toModel.unpack) ?_
    rw [hx]; rfl
  | sub =>
    refine key (UnpackedFloat.sub Format.binary64 x.toModel.unpack y.toModel.unpack) ?_
    rw [hx]; rfl
  | mul =>
    refine key (UnpackedFloat.mul Format.binary64 x.toModel.unpack y.toModel.unpack) ?_
    rw [hx]; rfl
  | div =>
    refine key (UnpackedFloat.div Format.binary64 x.toModel.unpack y.toModel.unpack) ?_
    rw [hx]; rfl

/-- Arithmetic with a missing second operand gives a missing value. -/
theorem isNaN_apply_right (op : Arithmetic) (x : Float) {y : Float} (h : y.isNaN = true) :
    (op.apply x y).isNaN = true := by
  have hy := unpack_of_isNaN h
  have key : ∀ z : UnpackedFloat, z = .notANumber →
      (Float.ofModel (Float.Model.pack z)).isNaN = true := fun z hz => hz ▸ isNaN_pack_notANumber
  cases op with
  | add =>
    refine key (UnpackedFloat.add Format.binary64 x.toModel.unpack y.toModel.unpack) ?_
    rw [hy]; cases x.toModel.unpack <;> rfl
  | sub =>
    refine key (UnpackedFloat.sub Format.binary64 x.toModel.unpack y.toModel.unpack) ?_
    rw [hy]; cases x.toModel.unpack <;> rfl
  | mul =>
    refine key (UnpackedFloat.mul Format.binary64 x.toModel.unpack y.toModel.unpack) ?_
    rw [hy]; cases x.toModel.unpack <;> rfl
  | div =>
    refine key (UnpackedFloat.div Format.binary64 x.toModel.unpack y.toModel.unpack) ?_
    rw [hy]; cases x.toModel.unpack <;> rfl

/-- The absolute value of a missing value is missing. -/
theorem isNaN_abs {x : Float} (h : x.isNaN = true) : x.abs.isNaN = true := by
  rw [eq_missing h]
  decide +kernel

/-! ### Fields -/

/-- The bits with a given sign, field and fraction. -/
abbrev word (sign : Sign) (field : BitVec 11) (fraction : BitVec 52) : BitVec 64 :=
  packComponents Format.binary64 sign field fraction

theorem toNat_word (sign : Sign) (field : BitVec 11) (fraction : BitVec 52) :
    (word sign field fraction).toNat =
      sign.toBitVec.toNat * 2 ^ 63 + (field.toNat * 2 ^ 52 + fraction.toNat) := by
  have hfield : field.toNat < 2 ^ 11 := field.isLt
  have hfraction : fraction.toNat < 2 ^ 52 := fraction.isLt
  have hlow : field.toNat * 2 ^ 52 + fraction.toNat < 2 ^ 63 := by omega
  have hfields : field.toNat <<< 52 ||| fraction.toNat = field.toNat * 2 ^ 52 + fraction.toNat := by
    rw [← Nat.shiftLeft_add_eq_or_of_lt hfraction, Nat.shiftLeft_eq]
  change (sign.toBitVec ++ field ++ fraction).toNat = _
  rw [BitVec.append_assoc, BitVec.toNat_cast, BitVec.toNat_append, BitVec.toNat_append, hfields,
    ← Nat.shiftLeft_add_eq_or_of_lt hlow, Nat.shiftLeft_eq]

theorem ofBitVec_toBitVec (sign : Sign) : Sign.ofBitVec sign.toBitVec = sign := by
  cases sign <;> rfl

theorem unpackSign_word (sign : Sign) (field : BitVec 11) (fraction : BitVec 52) :
    @unpackSign Format.binary64 (word sign field fraction) = sign.toBitVec := by
  apply BitVec.eq_of_getLsbD_eq
  intro i hi
  obtain rfl : i = 0 := by omega
  have hhigh : (sign.toBitVec ++ field ++ fraction).getLsbD 63 = sign.toBitVec.getLsbD 0 := by
    simp only [BitVec.getLsbD_append, show ¬ (63 < 52) by omega, if_false,
      show ¬ (63 - 52 < 11) by omega, show 63 - 52 - 11 = 0 by omega]
  delta unpackSign
  simp only [packComponents, BitVec.getLsbD_cast, BitVec.getLsbD_extractLsb]
  exact hhigh

/-- The parts of the bits of a double put together again. -/
theorem exists_word (b : BitVec 64) : ∃ sign field fraction, b = word sign field fraction := by
  let sign := Sign.ofBitVec (BitVec.ofNat 1 (b.toNat / 2 ^ 63))
  refine ⟨sign, BitVec.ofNat 11 (b.toNat / 2 ^ 52), BitVec.ofNat 52 b.toNat, ?_⟩
  have hb : b.toNat < 2 ^ 64 := b.isLt
  have hsign : sign.toBitVec.toNat = b.toNat / 2 ^ 63 := by
    have hlt : b.toNat / 2 ^ 63 < 2 := by omega
    simp only [sign, Sign.ofBitVec]
    split
    · rename_i h
      have h0 : b.toNat / 2 ^ 63 % 2 ^ 1 = 0 := by simpa using congrArg BitVec.toNat h
      change 0 = b.toNat / 2 ^ 63
      omega
    · rename_i h
      have h0 : b.toNat / 2 ^ 63 ≠ 0 := fun h0 => h (by rw [h0])
      change 1 = b.toNat / 2 ^ 63
      omega
  apply BitVec.eq_of_toNat_eq
  rw [toNat_word, hsign, BitVec.toNat_ofNat, BitVec.toNat_ofNat]
  omega

/-- What a sign, a field and a fraction stand for. -/
def ofFields (sign : Sign) (field : BitVec 11) (fraction : BitVec 52) : UnpackedFloat :=
  if field = -1#11 then (if fraction = 0#52 then .infinity sign else .notANumber)
  else if field = 0#11 then
    (if h : fraction = 0#52 then .zero sign
      else .finite sign fraction.toNat (-1074)
        (by simpa [BitVec.toNat_pos, BitVec.pos_iff_ne_zero] using h))
  else .finite sign (2 ^ 52 + fraction.toNat) ((field.toNat : Int) - 1075) (by omega)

section Fields

variable (sign : Sign) {field : BitVec 11} {fraction : BitVec 52}

theorem ofFields_infinity (hfield : field = -1#11) (hfraction : fraction = 0#52) :
    ofFields sign field fraction = .infinity sign :=
  (if_pos hfield).trans (if_pos hfraction)

theorem ofFields_notANumber (hfield : field = -1#11) (hfraction : fraction ≠ 0#52) :
    ofFields sign field fraction = .notANumber :=
  (if_pos hfield).trans (if_neg hfraction)

theorem ofFields_zero (hfield : field = 0#11) (hfraction : fraction = 0#52) :
    ofFields sign field fraction = .zero sign := by
  subst hfield hfraction
  rfl

theorem ofFields_subnormal (hfield : field = 0#11) (hfraction : fraction ≠ 0#52)
    (hpos : 0 < fraction.toNat) :
    ofFields sign field fraction = .finite sign fraction.toNat (-1074) hpos := by
  subst hfield
  exact (if_neg (by decide)).trans ((if_pos rfl).trans (dif_neg hfraction))

theorem ofFields_normal (hones : field ≠ -1#11) (hfield : field ≠ 0#11)
    (hpos : 0 < 2 ^ 52 + fraction.toNat) :
    ofFields sign field fraction =
      .finite sign (2 ^ 52 + fraction.toNat) ((field.toNat : Int) - 1075) hpos :=
  (if_neg hones).trans (if_neg hfield)

end Fields

theorem finite_congr {sign : Sign} {m m' : Nat} {e e' : Int} (hm : m = m') (he : e = e')
    {h : 0 < m} {h' : 0 < m'} :
    UnpackedFloat.finite sign m e h = UnpackedFloat.finite sign m' e' h' := by
  subst hm he
  rfl

/-- Bits stand for what their sign, field and fraction stand for. -/
theorem unpack_eq_ofFields {b : BitVec 64} {sign : Sign} {field : BitVec 11}
    {fraction : BitVec 52} (hsign : Sign.ofBitVec (@unpackSign Format.binary64 b) = sign)
    (hfield : @unpackExponent Format.binary64 b = field)
    (hfraction : @unpackMantissa Format.binary64 b = fraction) :
    unpack Format.binary64 b = ofFields sign field fraction := by
  have hbias : ((Format.binary64.exponentBias : Nat) : Int) + Format.binary64.mantissaBitsWithoutImplicit
      = 1075 := by decide
  have hnormal : (1#1 ++ fraction).toNat = 2 ^ 52 + fraction.toNat := by
    have hlt : fraction.toNat < 2 ^ 52 := fraction.isLt
    rw [BitVec.toNat_append, ← Nat.shiftLeft_add_eq_or_of_lt hlt, Nat.shiftLeft_eq]
    rfl
  subst hsign hfield hfraction
  by_cases hones : @unpackExponent Format.binary64 b = -1#11
  · by_cases hzero : @unpackMantissa Format.binary64 b = 0#52
    · exact ((if_pos hones).trans (if_pos hzero)).trans (ofFields_infinity _ hones hzero).symm
    · exact ((if_pos hones).trans (if_neg hzero)).trans (ofFields_notANumber _ hones hzero).symm
  · by_cases hleast : @unpackExponent Format.binary64 b = 0#11
    · by_cases hzero : @unpackMantissa Format.binary64 b = 0#52
      · exact ((if_neg hones).trans ((if_pos hleast).trans (dif_pos hzero))).trans
          (ofFields_zero _ hleast hzero).symm
      · have hpos : 0 < (@unpackMantissa Format.binary64 b).toNat :=
          Nat.pos_of_ne_zero fun h => hzero (BitVec.eq_of_toNat_eq h)
        refine ((if_neg hones).trans ((if_pos hleast).trans (dif_neg hzero))).trans
          (Eq.trans ?_ (ofFields_subnormal _ hleast hzero hpos).symm)
        exact finite_congr rfl (by rw [hleast, hbias]; rfl)
    · refine ((if_neg hones).trans (if_neg hleast)).trans
        (Eq.trans ?_ (ofFields_normal _ hones hleast (by omega)).symm)
      exact finite_congr hnormal (by rw [hbias])

/-- What the bits of a number stand for. -/
theorem unpack_word (sign : Sign) (field : BitVec 11) (fraction : BitVec 52) :
    unpack Format.binary64 (word sign field fraction) = ofFields sign field fraction := by
  refine unpack_eq_ofFields ?_ unpackExponent_packComponents unpackMantissa_packComponents
  rw [unpackSign_word, ofBitVec_toBitVec]

/-- Bits whose field is not all ones are given back. -/
theorem pack_unpack_word (sign : Sign) {field : BitVec 11} (fraction : BitVec 52)
    (h : field ≠ -1#11) :
    pack Format.binary64 (unpack Format.binary64 (word sign field fraction)) =
      word sign field fraction := by
  have hfield : field.toNat < 2047 := by
    have hlt : field.toNat < 2 ^ 11 := field.isLt
    have : field.toNat ≠ 2047 := fun h' => h (BitVec.eq_of_toNat_eq (by rw [h']; rfl))
    omega
  have hfraction : fraction.toNat < 2 ^ 52 := fraction.isLt
  have hbias : ((Format.binary64.exponentBias : Nat) : Int) = 1023 := by decide
  rw [unpack_word]
  by_cases hzero : field = 0#11
  · by_cases hfraction0 : fraction = 0#52
    · subst hzero hfraction0
      rfl
    · have hne : fraction.toNat ≠ 0 := fun h' => hfraction0 (BitVec.eq_of_toNat_eq h')
      rw [ofFields_subnormal sign hzero hfraction0 (Nat.pos_of_ne_zero hne)]
      have hlog : fraction.toNat.log2 < 52 := (Nat.log2_lt hne).2 hfraction
      subst hzero
      delta UnpackedFloat.pack
      simp only [hbias]
      rw [if_neg (by decide), if_neg (by change ¬ (_ = 53); omega)]
      exact congrArg (word sign 0#11) (BitVec.ofNat_toNat ..)
  · rw [ofFields_normal sign h hzero (by omega)]
    have hlog : (2 ^ 52 + fraction.toNat).log2 = 52 :=
      (Nat.log2_eq_iff (by omega)).2 ⟨by omega, by omega⟩
    have hback : (((field.toNat : Int) - 1075 + 1023 + 52)).toNat = field.toNat := by omega
    delta UnpackedFloat.pack
    simp only [hbias]
    rw [show ((Format.binary64.mantissaBitsWithoutImplicit : Nat) : Int) = 52 from rfl, hback,
      if_neg (by omega), if_pos (by rw [hlog]; rfl)]
    have hlow : BitVec.ofNat 52 (2 ^ 52 + fraction.toNat) = fraction := by
      apply BitVec.eq_of_toNat_eq
      rw [BitVec.toNat_ofNat]
      omega
    have hhigh : BitVec.ofNat 11 field.toNat = field := BitVec.ofNat_toNat ..
    change word sign (BitVec.ofNat 11 field.toNat) (BitVec.ofNat 52 (2 ^ 52 + fraction.toNat)) = _
    rw [hlow, hhigh]

/-- The bits of the negative of a number. -/
theorem neg_unpack_word (sign : Sign) (field : BitVec 11) (fraction : BitVec 52) :
    (unpack Format.binary64 (word sign field fraction)).neg =
      unpack Format.binary64 (word (-sign) field fraction) := by
  rw [unpack_word, unpack_word]
  by_cases hones : field = -1#11
  · by_cases hzero : fraction = 0#52
    · rw [ofFields_infinity _ hones hzero, ofFields_infinity _ hones hzero]
      rfl
    · rw [ofFields_notANumber _ hones hzero, ofFields_notANumber _ hones hzero]
      rfl
  · by_cases hleast : field = 0#11
    · by_cases hzero : fraction = 0#52
      · rw [ofFields_zero _ hleast hzero, ofFields_zero _ hleast hzero]
        rfl
      · have hpos : 0 < fraction.toNat :=
          Nat.pos_of_ne_zero fun h => hzero (BitVec.eq_of_toNat_eq h)
        rw [ofFields_subnormal _ hleast hzero hpos, ofFields_subnormal _ hleast hzero hpos]
        rfl
    · have hpos : 0 < 2 ^ 52 + fraction.toNat := by omega
      rw [ofFields_normal _ hones hleast hpos, ofFields_normal _ hones hleast hpos]
      rfl

/-! ### Sign and magnitude -/

theorem field_of_finite {x : Float} (hn : x.isNaN = false) (hi : x.isInf = false) {sign : Sign}
    {field : BitVec 11} {fraction : BitVec 52}
    (hx : x.toBits.toBitVec = word sign field fraction) : field ≠ -1#11 := by
  intro hfield
  have hn' : (unpack Format.binary64 x.toBits.toBitVec).isNaN = false := hn
  have hi' : (unpack Format.binary64 x.toBits.toBitVec).isInf = false := hi
  rw [hx, unpack_word] at hn' hi'
  by_cases hzero : fraction = 0#52
  · rw [ofFields_infinity _ hfield hzero] at hi'
    exact Bool.noConfusion hi'
  · rw [ofFields_notANumber _ hfield hzero] at hn'
    exact Bool.noConfusion hn'

/-- The magnitude of a double: its bits without the sign. -/
def magnitude (x : Float) : Float := Float.ofBits (UInt64.ofNat (x.toBits.toNat % 2 ^ 63))

theorem toNat_eq_word {x : Float} {sign : Sign} {field : BitVec 11} {fraction : BitVec 52}
    (hx : x.toBits.toBitVec = word sign field fraction) :
    x.toBits.toNat = sign.toBitVec.toNat * 2 ^ 63 + (field.toNat * 2 ^ 52 + fraction.toNat) := by
  rw [← toNat_word, ← hx]
  rfl

/-- The exponent field of a finite double is not all ones. -/
theorem field_lt {x : Float} (hn : x.isNaN = false) (hi : x.isInf = false) :
    x.toBits.toNat / 2 ^ 52 % 2 ^ 11 < 2047 := by
  obtain ⟨sign, field, fraction, hx⟩ := exists_word x.toBits.toBitVec
  have hne := field_of_finite hn hi hx
  have hlt : field.toNat < 2 ^ 11 := field.isLt
  have hfraction : fraction.toNat < 2 ^ 52 := fraction.isLt
  have hne' : field.toNat ≠ 2047 := fun h => hne (BitVec.eq_of_toNat_eq (by rw [h]; rfl))
  rw [toNat_eq_word hx]
  omega

/-- **A finite double is its magnitude with its sign.** -/
theorem signed_magnitude {x : Float} (hn : x.isNaN = false) (hi : x.isInf = false) :
    (if x.toBits.toNat / 2 ^ 63 = 1 then -magnitude x else magnitude x) = x := by
  obtain ⟨sign, field, fraction, hx⟩ := exists_word x.toBits.toBitVec
  have hne := field_of_finite hn hi hx
  have hlt : field.toNat < 2 ^ 11 := field.isLt
  have hfraction : fraction.toNat < 2 ^ 52 := fraction.isLt
  have hbits := toNat_eq_word hx
  have hword : (UInt64.ofNat (x.toBits.toNat % 2 ^ 63)).toBitVec = word .positive field fraction := by
    apply BitVec.eq_of_toNat_eq
    have hlow : (UInt64.ofNat (x.toBits.toNat % 2 ^ 63)).toNat = x.toBits.toNat % 2 ^ 63 :=
      UInt64.toNat_ofNat_of_lt' (Nat.lt_of_lt_of_le (Nat.mod_lt _ (by decide)) (by decide))
    change (UInt64.ofNat (x.toBits.toNat % 2 ^ 63)).toNat = _
    rw [hlow, toNat_word, hbits]
    have hsign : sign.toBitVec.toNat < 2 := sign.toBitVec.isLt
    change _ = 0 * 2 ^ 63 + _
    omega
  have hmagnitude : (magnitude x).toBits.toBitVec = word .positive field fraction := by
    change pack Format.binary64 (unpack Format.binary64 _) = _
    rw [hword, pack_unpack_word _ _ hne]
  cases sign with
  | negative =>
    have hone : x.toBits.toNat / 2 ^ 63 = 1 := by
      rw [hbits]
      change (1 * 2 ^ 63 + _) / 2 ^ 63 = 1
      omega
    rw [if_pos hone]
    apply ext_bits
    apply UInt64.toBitVec_inj.1
    change pack Format.binary64 (unpack Format.binary64 (magnitude x).toBits.toBitVec).neg = _
    rw [hmagnitude, neg_unpack_word, hx]
    exact pack_unpack_word _ _ hne
  | positive =>
    have hzero : ¬ x.toBits.toNat / 2 ^ 63 = 1 := by
      rw [hbits]
      change ¬ (0 * 2 ^ 63 + _) / 2 ^ 63 = 1
      omega
    rw [if_neg hzero]
    exact ext_bits (UInt64.toBitVec_inj.1 (hmagnitude.trans hx.symm))

end Double

end SeriesAlgebra
