import SeriesAlgebra.Formula.Reading
import SeriesAlgebra.Proofs.Decimal.Shortest

/-!
# Numbers as text

What is written for a number is read back as that number. For a double the text is its
shortest decimal in one of four layouts; in each of them the digits are in front, the
point and the exponent say where they stand, and reading finds a decimal of the same
value (`Decimal.read_writeDecimal`). That value rounds to the double.

Main statements: `Decimal.readFloat?_exactText` for finite doubles and
`Decimal.readInt?_toString` for integers.
-/

namespace SeriesAlgebra

namespace Decimal

/-! ### Digits -/

theorem digitsValue_eq (ds : List Char) : digitsValue ds = Nat.ofDigitChars 10 ds 0 := by
  rw [digitsValue, Nat.ofDigitChars_eq_foldl]

@[simp] theorem digitsValue_toDigits (n : Nat) : digitsValue (Nat.toDigits 10 n) = n := by
  rw [digitsValue_eq, Nat.ofDigitChars_ten_toDigits]

theorem foldl_digits (start : Nat) (ds : List Char) :
    ds.foldl (fun n c => 10 * n + (c.toNat - '0'.toNat)) start =
      start * 10 ^ ds.length + digitsValue ds := by
  unfold digitsValue
  induction ds generalizing start with
  | nil => simp
  | cons c rest ih =>
    rw [List.foldl_cons, ih, List.foldl_cons, ih (10 * 0 + _), List.length_cons, Nat.pow_succ]
    ring

theorem digitsValue_append (as bs : List Char) :
    digitsValue (as ++ bs) = digitsValue as * 10 ^ bs.length + digitsValue bs := by
  conv_lhs => unfold digitsValue
  rw [List.foldl_append, foldl_digits]
  rfl

@[simp] theorem digitsValue_zeros (n : Nat) : digitsValue (List.replicate n '0') = 0 := by
  induction n with
  | zero => rfl
  | succ n ih =>
    have hzero : digitsValue ['0'] = 0 := rfl
    rw [List.replicate_succ, ← List.singleton_append, digitsValue_append, ih, hzero, Nat.zero_mul]

/-- Whether all characters are digits. -/
def AllDigits (cs : List Char) : Prop := ∀ c ∈ cs, c.isDigit = true

theorem allDigits_toDigits (n : Nat) : AllDigits (Nat.toDigits 10 n) := fun _ h =>
  Nat.isDigit_of_mem_toDigits (by norm_num) (by norm_num) h

theorem AllDigits.append {as bs : List Char} (ha : AllDigits as) (hb : AllDigits bs) :
    AllDigits (as ++ bs) := fun c hc => (List.mem_append.1 hc).elim (ha c) (hb c)

theorem allDigits_zeros (n : Nat) : AllDigits (List.replicate n '0') := fun c hc => by
  rw [List.eq_of_mem_replicate hc]
  rfl

/-- Taking digits stops where they end. -/
theorem takeDigits_append {ds rest : List Char} (hds : AllDigits ds)
    (hrest : ∀ c ∈ rest.head?, c.isDigit = false) : takeDigits (ds ++ rest) = (ds, rest) := by
  unfold takeDigits
  induction ds with
  | nil =>
    cases rest with
    | nil => rfl
    | cons c rest => simp [hrest c rfl]
  | cons d ds ih =>
    have hd : d.isDigit = true := hds d List.mem_cons_self
    have ih := ih fun c hc => hds c (List.mem_cons_of_mem _ hc)
    rw [Prod.mk.injEq] at ih
    simp [hd, ih.1, ih.2]

theorem takeDigits_all {ds : List Char} (hds : AllDigits ds) : takeDigits ds = (ds, []) := by
  have hnil : ∀ c ∈ ([] : List Char).head?, c.isDigit = false := by simp
  simpa using takeDigits_append hds hnil

/-! ### The parts of a number -/

theorem takeSign_digit {c : Char} (h : c.isDigit = true) (rest : List Char) :
    takeSign (c :: rest) = (false, c :: rest) := by
  unfold takeSign
  split
  · rename_i heq
    rw [(List.cons.inj heq).1] at h
    exact absurd h (by decide)
  · rename_i heq
    rw [(List.cons.inj heq).1] at h
    exact absurd h (by decide)
  · rfl

theorem readWord?_digit {c : Char} (h : c.isDigit = true) (rest : List Char) :
    readWord? (c :: rest) = none := by
  have hc : c.toLower = c := by
    unfold Char.toLower
    rw [dif_neg]
    intro hupper
    simp only [Char.isDigit, Bool.and_eq_true, decide_eq_true_eq] at h
    have h9 := UInt32.le_iff_toNat_le.1 h.2
    have hA := UInt32.le_iff_toNat_le.1 hupper.1
    change _ ≤ 57 at h9
    change 65 ≤ _ at hA
    omega
  unfold readWord?
  rw [List.map_cons, hc]
  split
  · rename_i heq
    rw [(List.cons.inj heq).1] at h
    exact absurd h (by decide)
  · rename_i heq
    rw [(List.cons.inj heq).1] at h
    exact absurd h (by decide)
  · rename_i heq
    rw [(List.cons.inj heq).1] at h
    exact absurd h (by decide)
  · rfl

/-- An integer in decimal digits with its sign. -/
theorem toList_toString_int (n : Int) :
    (toString n).toList =
      if n < 0 then '-' :: Nat.toDigits 10 n.natAbs else Nat.toDigits 10 n.natAbs := by
  cases n with
  | ofNat m =>
    rw [if_neg (by simp)]
    change (Nat.repr m).toList = _
    rw [Nat.toList_repr]
    rfl
  | negSucc m =>
    rw [if_pos (Int.negSucc_lt_zero m)]
    change ("-" ++ Nat.repr (m + 1)).toList = _
    rw [String.toList_append, Nat.toList_repr]
    rfl

theorem toDigits_cons (n : Nat) : ∃ c rest, Nat.toDigits 10 n = c :: rest ∧ c.isDigit = true := by
  cases h : Nat.toDigits 10 n with
  | nil => exact absurd h Nat.toDigits_ne_nil
  | cons c rest =>
    exact ⟨c, rest, rfl, allDigits_toDigits n c (h ▸ List.mem_cons_self)⟩

/-- The sign of an integer and its digits. -/
theorem takeSign_toString (n : Int) :
    takeSign (toString n).toList = (decide (n < 0), Nat.toDigits 10 n.natAbs) := by
  rw [toList_toString_int]
  by_cases h : n < 0
  · rw [if_pos h, decide_eq_true h]
    rfl
  · rw [if_neg h, decide_eq_false h]
    obtain ⟨c, rest, heq, hc⟩ := toDigits_cons n.natAbs
    rw [heq, takeSign_digit hc]

theorem signed_natAbs (n : Int) :
    (if decide (n < 0) = true then -(n.natAbs : Int) else (n.natAbs : Int)) = n := by
  split
  · rename_i h
    have := of_decide_eq_true h
    omega
  · rename_i h
    have : ¬ n < 0 := fun h' => h (decide_eq_true h')
    omega

/-- An exponent is read back. -/
theorem readExponent?_toString (n : Int) : readExponent? ('e' :: (toString n).toList) = some n := by
  have hne : (Nat.toDigits 10 n.natAbs).isEmpty = false := by
    obtain ⟨c, rest, heq, -⟩ := toDigits_cons n.natAbs
    rw [heq]
    rfl
  simp only [readExponent?, true_or, if_true, takeSign_toString,
    takeDigits_all (allDigits_toDigits n.natAbs), hne, digitsValue_toDigits]
  simpa using signed_natAbs n

/-- **An integer of 64 bits is read back.** -/
theorem readInt?_toString (n : Int64) : readInt? (toString n.toInt).toList = some n := by
  have hne : (Nat.toDigits 10 n.toInt.natAbs).isEmpty = false := by
    obtain ⟨c, rest, heq, -⟩ := toDigits_cons n.toInt.natAbs
    rw [heq]
    rfl
  have hfits : fitsInt64 n.toInt = true := by
    have hlow := Int64.le_toInt n
    have hhigh := Int64.toInt_lt n
    simp only [fitsInt64, Bool.and_eq_true, decide_eq_true_eq]
    exact ⟨hlow, hhigh⟩
  simp only [readInt?, takeSign_toString, takeDigits_all (allDigits_toDigits n.toInt.natAbs), hne,
    digitsValue_toDigits, signed_natAbs, toInt64?, hfits, Int64.ofInt_toInt]
  simp

/-! ### Doubles -/

/-- A magnitude with a point. -/
theorem readMagnitude?_point {ws fs rest : List Char} (hws : AllDigits ws) (hne : ws ≠ [])
    (hfs : AllDigits fs) (hrest : ∀ c ∈ rest.head?, c.isDigit = false) :
    readMagnitude? (ws ++ '.' :: (fs ++ rest)) =
      (readExponent? rest).map fun e => nearest (digitsValue (ws ++ fs)) (e - fs.length) := by
  have hw : takeDigits (ws ++ '.' :: (fs ++ rest)) = (ws, '.' :: (fs ++ rest)) :=
    takeDigits_append hws (by simp)
  have hwe : ws.isEmpty = false := by simpa using hne
  simp only [readMagnitude?, hw, takeDigits_append hfs hrest, hwe, Bool.false_and]
  rfl

/-- A magnitude without a point. -/
theorem readMagnitude?_whole {ws rest : List Char} (hws : AllDigits ws) (hne : ws ≠ [])
    (hrest : ∀ c ∈ rest.head?, c.isDigit = false ∧ c ≠ '.') :
    readMagnitude? (ws ++ rest) =
      (readExponent? rest).map fun e => nearest (digitsValue ws) e := by
  have hw : takeDigits (ws ++ rest) = (ws, rest) :=
    takeDigits_append hws fun c hc => (hrest c hc).1
  have hwe : ws.isEmpty = false := by simpa using hne
  simp only [readMagnitude?, hw]
  split
  · exact absurd rfl (hrest '.' rfl).2
  · simp [hwe]

/-- What a text for a positive number is: digits in front, something that is no digit somewhere,
and a magnitude of the given value. -/
structure Shows (cs : List Char) (v : ℚ) : Prop where
  digit : ∃ c rest, cs = c :: rest ∧ c.isDigit = true
  notWhole : (takeDigits cs).2 ≠ []
  magnitude : ∃ mantissa exponent, readMagnitude? cs = some (nearest mantissa exponent) ∧
    (mantissa : ℚ) * 10 ^ exponent = v

theorem Shows.point (ws fs rest : List Char) (e : Int) (hws : AllDigits ws) (hne : ws ≠ [])
    (hfs : AllDigits fs) (hrest : ∀ c ∈ rest.head?, c.isDigit = false)
    (he : readExponent? rest = some e) :
    Shows (ws ++ '.' :: (fs ++ rest)) (digitsValue (ws ++ fs) * 10 ^ (e - fs.length)) where
  digit := by
    cases ws with
    | nil => exact absurd rfl hne
    | cons c ws => exact ⟨c, _, rfl, hws c List.mem_cons_self⟩
  notWhole := by
    rw [takeDigits_append hws (by simp)]
    exact List.cons_ne_nil _ _
  magnitude := by
    refine ⟨_, _, ?_, rfl⟩
    rw [readMagnitude?_point hws hne hfs hrest, he]
    rfl

theorem Shows.whole (ws rest : List Char) (e : Int) (hws : AllDigits ws)
    (hne : ws ≠ []) (hrest : rest ≠ []) (hhead : ∀ c ∈ rest.head?, c.isDigit = false ∧ c ≠ '.')
    (he : readExponent? rest = some e) : Shows (ws ++ rest) (digitsValue ws * 10 ^ e) where
  digit := by
    cases ws with
    | nil => exact absurd rfl hne
    | cons c ws => exact ⟨c, _, rfl, hws c List.mem_cons_self⟩
  notWhole := by
    rw [takeDigits_append hws fun c hc => (hhead c hc).1]
    exact hrest
  magnitude := by
    refine ⟨_, _, ?_, rfl⟩
    rw [readMagnitude?_whole hws hne hhead, he]
    rfl

/-- The digits of a decimal, without the zeros at the end. -/
theorem trimmedDigits_spec {c : Decimal} (h : 0 < c.digits) :
    AllDigits c.trimmedDigits.1 ∧ c.trimmedDigits.1 ≠ [] ∧
      c.digits = digitsValue c.trimmedDigits.1 * 10 ^ c.trimmedDigits.2 := by
  set ds := Nat.toDigits 10 c.digits with hds
  have hsplit : ds = c.trimmedDigits.1 ++ List.replicate c.trimmedDigits.2 '0' := by
    have hzeros : ds.reverse.takeWhile (· == '0') =
        List.replicate (ds.reverse.takeWhile (· == '0')).length '0' := by
      apply List.eq_replicate_of_mem
      intro x hx
      have := List.all_eq_true.1 List.all_takeWhile x hx
      simpa using this
    have hlength : (ds.reverse.takeWhile (· == '0')).length = c.trimmedDigits.2 := by
      have := congrArg List.length (List.takeWhile_append_dropWhile (p := (· == '0')) (l := ds.reverse))
      rw [List.length_append] at this
      simp only [trimmedDigits, ← hds]
      omega
    have := congrArg List.reverse
      (List.takeWhile_append_dropWhile (p := (· == '0')) (l := ds.reverse))
    rw [List.reverse_append, List.reverse_reverse, hzeros, hlength, List.reverse_replicate] at this
    exact this.symm
  have hall : AllDigits c.trimmedDigits.1 := fun x hx =>
    allDigits_toDigits c.digits x (by rw [← hds, hsplit]; exact List.mem_append_left _ hx)
  have hvalue : c.digits = digitsValue c.trimmedDigits.1 * 10 ^ c.trimmedDigits.2 := by
    have := digitsValue_toDigits c.digits
    rw [← hds, hsplit, digitsValue_append, digitsValue_zeros, List.length_replicate] at this
    omega
  refine ⟨hall, fun hnil => ?_, hvalue⟩
  rw [hnil] at hvalue
  simp [digitsValue] at hvalue
  omega

theorem AllDigits.take {ds : List Char} (h : AllDigits ds) (n : Nat) : AllDigits (ds.take n) :=
  fun c hc => h c (List.mem_of_mem_take hc)

theorem AllDigits.drop {ds : List Char} (h : AllDigits ds) (n : Nat) : AllDigits (ds.drop n) :=
  fun c hc => h c (List.mem_of_mem_drop hc)

/-- Digits without an exponent are read back. -/
theorem shows_writePositional {ds : List Char} (hds : AllDigits ds) (hne : ds ≠ [])
    (leading : Int) :
    Shows (NumberLayout.exact.writePositional ds leading)
      (digitsValue ds * 10 ^ (leading + 1 - ds.length)) := by
  have hlength : 0 < ds.length := List.length_pos_of_ne_nil hne
  simp only [NumberLayout.writePositional]
  split
  · rename_i hneg
    have h := Shows.point ['0'] (List.replicate (-leading - 1).toNat '0' ++ ds) [] 0
      (by intro c hc; simp at hc; subst hc; rfl) (by simp)
      ((allDigits_zeros _).append hds) (by simp) rfl
    have hzeros : digitsValue (['0'] ++ List.replicate (-leading - 1).toNat '0') = 0 := by
      rw [digitsValue_append, digitsValue_zeros]
      simp [digitsValue]
    rw [← List.append_assoc, digitsValue_append, hzeros, Nat.zero_mul, Nat.zero_add,
      List.append_nil] at h
    have hexp : leading + 1 - ds.length =
        0 - ((List.replicate (-leading - 1).toNat '0' ++ ds).length : Nat) := by
      rw [List.length_append, List.length_replicate]
      push_cast
      omega
    rw [hexp]
    exact h
  · rename_i hpos
    split
    · rename_i hle
      have h := Shows.point (ds ++ List.replicate (leading.toNat + 1 - ds.length) '0') ['0'] [] 0
        (hds.append (allDigits_zeros _)) (by simp [hne])
        (by intro c hc; simp at hc; subst hc; rfl) (by simp) rfl
      convert h using 1
      · simp [NumberLayout.exact]
      · have hzero : digitsValue ['0'] = 0 := rfl
        rw [digitsValue_append, digitsValue_append, digitsValue_zeros, hzero]
        have hexp : leading + 1 - ds.length = ((leading.toNat + 1 - ds.length : Nat) : Int) := by
          omega
        rw [hexp, zpow_natCast]
        simp only [List.length_replicate, List.length_cons, List.length_nil]
        push_cast
        norm_num
        ring
    · rename_i hgt
      have h := Shows.point (ds.take (leading.toNat + 1)) (ds.drop (leading.toNat + 1)) [] 0
        (hds.take _) (by simp [hne]) (hds.drop _) (by simp) rfl
      rw [List.take_append_drop, List.append_nil] at h
      have hexp : leading + 1 - ds.length = 0 - ((ds.drop (leading.toNat + 1)).length : Nat) := by
        rw [List.length_drop]
        omega
      rw [hexp]
      exact h

/-- Digits with an exponent are read back. -/
theorem shows_writeScientific {ds : List Char} (hds : AllDigits ds) (hne : ds ≠ [])
    (leading : Int) :
    Shows (NumberLayout.exact.writeScientific ds leading)
      (digitsValue ds * 10 ^ (leading + 1 - ds.length)) := by
  cases ds with
  | nil => exact absurd rfl hne
  | cons c rest =>
    have hc : AllDigits [c] := fun x hx => hds x (by simp at hx; simp [hx])
    have hexp : ∀ x ∈ ('e' :: (toString leading).toList).head?, x.isDigit = false := by
      intro x hx
      simp at hx
      subst hx
      rfl
    simp only [NumberLayout.writeScientific, NumberLayout.exact]
    cases rest with
    | nil =>
      have h := Shows.whole [c] ('e' :: (toString leading).toList) leading hc
        (by simp) (by simp) (by intro x hx; simp at hx; subst hx; exact ⟨rfl, by decide⟩)
        (readExponent?_toString leading)
      have hexp : leading + 1 - (([c] : List Char).length : Nat) = leading := by simp
      rw [hexp]
      exact h
    | cons d rest =>
      have h := Shows.point [c] (d :: rest)
        ('e' :: (toString leading).toList) leading hc (by simp)
        (fun x hx => hds x (List.mem_cons_of_mem _ hx)) hexp (readExponent?_toString leading)
      have hexp : leading + 1 - ((c :: d :: rest).length : Nat) =
          leading - ((d :: rest).length : Nat) := by
        simp only [List.length_cons]
        push_cast
        omega
      rw [hexp]
      simpa using h

/-- Digits are read back in either layout. -/
theorem shows_laidOut {ds : List Char} (hds : AllDigits ds) (hne : ds ≠ []) (leading : Int)
    (isPositional : Bool) :
    Shows (if isPositional then NumberLayout.exact.writePositional ds leading
      else NumberLayout.exact.writeScientific ds leading)
      (digitsValue ds * 10 ^ (leading + 1 - ds.length)) := by
  cases isPositional with
  | true => exact shows_writePositional hds hne leading
  | false => exact shows_writeScientific hds hne leading

/-- **The text of a positive decimal shows its value.** -/
theorem shows_writeDecimal {c : Decimal} (h : 0 < c.digits) :
    Shows (NumberLayout.exact.writeDecimal c) c.value := by
  obtain ⟨hall, hne, hvalue⟩ := trimmedDigits_spec h
  have hexponent : c.value = digitsValue c.trimmedDigits.1 *
      10 ^ ((c.exponent + c.trimmedDigits.2 + c.trimmedDigits.1.length - 1) + 1 -
        c.trimmedDigits.1.length : Int) := by
    rw [value, show (c.exponent + c.trimmedDigits.2 + c.trimmedDigits.1.length - 1) + 1 -
        c.trimmedDigits.1.length = (c.trimmedDigits.2 : Int) + c.exponent by ring,
      zpow_add₀ (by norm_num), zpow_natCast, ← mul_assoc]
    congr 1
    exact_mod_cast hvalue
  rw [hexponent]
  unfold NumberLayout.writeDecimal
  rw [if_neg h.ne']
  exact shows_laidOut hall hne _ _

/-! ### Reading a double back -/

/-- The least positive double against a power of ten. -/
theorem ten_zpow_lt : (10 : ℚ) ^ (-324 : Int) < 1 / 2 * 2 ^ (-1074 : Int) := by
  have hnat : (2 : Nat) ^ 1075 < 10 ^ 324 := by decide +kernel
  have hcast : (2 : ℚ) ^ 1075 < 10 ^ 324 := by exact_mod_cast hnat
  have htwo : (1 : ℚ) / 2 * 2 ^ (-1074 : Int) = (2 ^ 1075)⁻¹ := by
    rw [show (1 : ℚ) / 2 = 2 ^ (-1 : Int) by norm_num, ← zpow_add₀ two_ne_zero,
      show (-1 + -1074 : Int) = -((1075 : Nat) : Int) by norm_num, zpow_neg, zpow_natCast]
  rw [htwo, show (-324 : Int) = -((324 : Nat) : Int) by norm_num, zpow_neg, zpow_natCast]
  exact inv_strictAnti₀ (by positivity) hcast

/-- The greatest double against a power of ten. -/
theorem lt_ten_zpow : (2 : ℚ) ^ 53 * 2 ^ (971 : Int) < 10 ^ (309 : Int) := by
  have hnat : (2 : Nat) ^ 53 * 2 ^ 971 < 10 ^ 309 := by decide +kernel
  have hcast : (2 : ℚ) ^ 53 * 2 ^ 971 < 10 ^ 309 := by exact_mod_cast hnat
  exact hcast

/-- A number between the least and the greatest double is nowhere near the bounds beyond which
digits are not looked at. -/
theorem leading_bounds {d : Dyadic} (hd : d.IsNormal) (hpower : d.power ≤ 971) {mantissa : Nat}
    {exponent : Int} (h : d.Rounds (mantissa * 10 ^ exponent)) :
    -400 ≤ exponent + (Nat.toDigits 10 mantissa).length ∧
      exponent + (Nat.toDigits 10 mantissa).length ≤ 400 := by
  obtain ⟨hm, hm53, hp, -⟩ := hd
  have hpos := h.pos hm
  have hmantissa : 0 < mantissa := by
    rcases Nat.eq_zero_or_pos mantissa with h0 | h0
    · simp [h0] at hpos
    · exact h0
  have hm1 : (1 : ℚ) ≤ d.mantissa := by exact_mod_cast hm
  have hm' : (d.mantissa : ℚ) + 1 ≤ 2 ^ 53 := by exact_mod_cast hm53
  have hten : (0 : ℚ) < 10 ^ exponent := by positivity
  set n := (Nat.toDigits 10 mantissa).length
  have hn : 0 < n := Nat.length_toDigits_pos
  have hlt : (mantissa : ℚ) < 10 ^ n := by exact_mod_cast Dyadic.lt_pow_digitCount mantissa
  have hge : (10 : ℚ) ^ (n - 1) ≤ mantissa := by exact_mod_cast Dyadic.pow_digitCount_le hmantissa
  constructor
  · have hlow : (10 : ℚ) ^ (-324 : Int) < mantissa * 10 ^ exponent := by
      calc (10 : ℚ) ^ (-324 : Int) < 1 / 2 * 2 ^ (-1074 : Int) := ten_zpow_lt
        _ ≤ 1 / 2 * 2 ^ d.power := by gcongr; norm_num
        _ ≤ (d.mantissa - d.below) * 2 ^ d.power := by
          have := d.below_le
          gcongr
          linarith
        _ ≤ _ := h.1
    have hhigh : (mantissa : ℚ) * 10 ^ exponent < 10 ^ (exponent + n) := by
      rw [zpow_add₀ (by norm_num), zpow_natCast, mul_comm]
      gcongr
    have := (zpow_lt_zpow_iff_right₀ (by norm_num : (1 : ℚ) < 10)).1 (hlow.trans hhigh)
    omega
  · have hhigh : (mantissa : ℚ) * 10 ^ exponent < 10 ^ (309 : Int) := by
      calc (mantissa : ℚ) * 10 ^ exponent ≤ (d.mantissa + 1 / 2) * 2 ^ d.power := h.2.1
        _ ≤ 2 ^ 53 * 2 ^ (971 : Int) := by
          gcongr
          · linarith
          · norm_num
        _ < 10 ^ (309 : Int) := lt_ten_zpow
    have hlow : (10 : ℚ) ^ (exponent + n - 1) ≤ mantissa * 10 ^ exponent := by
      rw [show exponent + n - 1 = exponent + ((n - 1 : Nat) : Int) by omega,
        zpow_add₀ (by norm_num), zpow_natCast, mul_comm]
      gcongr
    have := (zpow_lt_zpow_iff_right₀ (by norm_num : (1 : ℚ) < 10)).1 (hlow.trans_lt hhigh)
    omega

/-- Reading a decimal that rounds to a double gives the double. -/
theorem nearest_eq {x : Float} (hn : x.isNaN = false) (hi : x.isInf = false)
    (hm : 0 < (Dyadic.ofFloat x).mantissa) {mantissa : Nat} {exponent : Int}
    (h : (Dyadic.ofFloat x).Rounds (mantissa * 10 ^ exponent)) :
    nearest mantissa exponent = Double.magnitude x := by
  have hnormal := Dyadic.isNormal_ofFloat hm
  have hpower : (Dyadic.ofFloat x).power ≤ 971 := by
    have := Double.field_lt hn hi
    simp only [Dyadic.ofFloat, Nat.pow_eq]
    split <;> dsimp only <;> omega
  obtain ⟨hlow, hhigh⟩ := leading_bounds hnormal hpower h
  have hmantissa : mantissa ≠ 0 := by
    rintro rfl
    have := h.pos hm
    simp at this
  have hfraction : ((mantissa * 10 ^ exponent.toNat : Nat) : ℚ) / (10 ^ (-exponent).toNat : Nat) =
      mantissa * 10 ^ exponent := by
    rw [zpow_eq_div 10 exponent]
    push_cast
    ring
  rw [← hfraction] at h
  have hbits := Dyadic.toBits_ofFraction hnormal (by positivity) h
  simp only [nearest, Nat.pow_eq, if_neg hmantissa, if_neg (not_lt.2 hhigh), if_neg (not_lt.2 hlow)]
  rw [Dyadic.toFloat, hbits, Dyadic.toBits_ofFloat hn hi, Double.magnitude]

/-- The digits of a finite double, without its sign. -/
theorem exists_magnitude {x : Float} (hn : x.isNaN = false) (hi : x.isInf = false) :
    ∃ c rest, NumberLayout.exact.writeDecimal ((Dyadic.ofFloat x).shortest .upper) = c :: rest ∧
      c.isDigit = true ∧ (takeDigits (c :: rest)).2 ≠ [] ∧
      readMagnitude? (c :: rest) = some (Double.magnitude x) := by
  rcases Nat.eq_zero_or_pos (Dyadic.ofFloat x).mantissa with hm | hm
  · have hbits : x.toBits.toNat % 2 ^ 63 = 0 := by
      have hb := Dyadic.toBits_ofFloat hn hi
      simp only [Dyadic.ofFloat, Nat.pow_eq] at hm
      split at hm
      · rename_i hzero
        dsimp only at hm
        omega
      · dsimp only at hm
        omega
    refine ⟨'0', ['.', '0'], ?_, rfl, by decide, ?_⟩
    · simp [Dyadic.shortest, hm, NumberLayout.writeDecimal, NumberLayout.exact]
    · rw [Double.magnitude, hbits]
      decide +kernel
  · have hnormal := Dyadic.isNormal_ofFloat hm
    have hrounds := Dyadic.shortest_rounds hnormal .upper
    have hdigits : 0 < ((Dyadic.ofFloat x).shortest .upper).digits := by
      rcases Nat.eq_zero_or_pos ((Dyadic.ofFloat x).shortest .upper).digits with h0 | h0
      · have := hrounds.pos hm
        simp [value, h0] at this
      · exact h0
    obtain ⟨⟨c, rest, hcs, hc⟩, hnot, mantissa, exponent, hread, hvalue⟩ :=
      shows_writeDecimal hdigits
    rw [hcs] at hnot hread
    rw [← hvalue] at hrounds
    exact ⟨c, rest, hcs, hc, hnot, by rw [hread, nearest_eq hn hi hm hrounds]⟩

/-- The characters of the exact text of a finite double. -/
theorem toList_exactText {x : Float} (hn : x.isNaN = false) (hi : x.isInf = false) :
    (exactText x).toList =
      (if x.toBits.toNat / 2 ^ 63 = 1 then ['-'] else []) ++
        NumberLayout.exact.writeDecimal ((Dyadic.ofFloat x).shortest .upper) := by
  simp only [exactText, NumberLayout.write, Nat.pow_eq, hn, hi, Bool.false_eq_true, if_false,
    String.toList_append, String.toList_ofList]
  split <;> rfl

/-- **The exact text of a finite double is read back.** -/
theorem readFloat?_exactText {x : Float} (hn : x.isNaN = false) (hi : x.isInf = false) :
    readFloat? (exactText x).toList = some x := by
  obtain ⟨c, rest, hcs, hc, -, hread⟩ := exists_magnitude hn hi
  have hsigned := Double.signed_magnitude hn hi
  rw [toList_exactText hn hi, hcs]
  split
  · rename_i hsign
    rw [if_pos hsign] at hsigned
    simp only [List.singleton_append, readFloat?, takeSign, readWord?_digit hc, hread]
    simpa using hsigned
  · rename_i hsign
    rw [if_neg hsign] at hsigned
    simp only [List.nil_append, readFloat?, takeSign_digit hc, readWord?_digit hc, hread]
    simpa using hsigned

/-- The exact text of a finite double is that of no integer. -/
theorem readInt?_exactText {x : Float} (hn : x.isNaN = false) (hi : x.isInf = false) :
    readInt? (exactText x).toList = none := by
  obtain ⟨c, rest, hcs, hc, hnot, -⟩ := exists_magnitude hn hi
  have hrest : (takeDigits (c :: rest)).2.isEmpty = false := by simpa using hnot
  rw [toList_exactText hn hi, hcs]
  split
  · simp [readInt?, takeSign, hrest]
  · simp only [List.nil_append, readInt?, takeSign_digit hc]
    simp [hrest]

end Decimal

end SeriesAlgebra
