import Mathlib.Data.Nat.Basic
import Mathlib.Order.Basic
import Mathlib.Tactic.ByContra
import SeriesAlgebra.Proofs.Double
import SeriesAlgebra.Series.Basic

/-!
# Filling gaps

A method of a fill policy gives values to missing points only. Which points have a value after it
is told by where there was one before: after `forward` a point has one if it or an earlier point
did, after `backward` if it or a later point did, and after a fixed value all points have one
(`FillMethod.isPresentAt_forward` and so on).

A list of values is **settled** for a method that changes nothing about it
(`FillMethod.IsSettled`). What is settled for one method stays settled whatever other method is
applied (`FillMethod.IsSettled.apply`), so what a policy leaves is settled for each of its methods
(`FillPolicy.isSettled_apply`). That filling twice is filling once follows from it, and also that no
gap is left between values that are carried both ways (`Series.fill_gaps`).
-/

namespace SeriesAlgebra

/-! ### Values at positions -/

/-- Whether there is a value at a position, and not a missing one. -/
def IsPresentAt (values : List Float) (i : Nat) : Prop := ∃ x, values[i]? = some x ∧ x.isNaN = false

/-- Whether a missing value is at a position. -/
def IsMissingAt (values : List Float) (i : Nat) : Prop := ∃ x, values[i]? = some x ∧ x.isNaN = true

/-- **The nearest value before a position**: there are only missing ones between. -/
def IsNearestBefore (values : List Float) (i : Nat) (x : Float) : Prop :=
  ∃ j < i, values[j]? = some x ∧ x.isNaN = false ∧ ∀ k, j < k → k < i → IsMissingAt values k

/-- **The nearest value after a position**: there are only missing ones between. -/
def IsNearestAfter (values : List Float) (i : Nat) (x : Float) : Prop :=
  ∃ j > i, values[j]? = some x ∧ x.isNaN = false ∧ ∀ k, i < k → k < j → IsMissingAt values k

section

variable {values others : List Float} {i j : Nat} {x y : Float}

theorem IsPresentAt.lt (h : IsPresentAt values i) : i < values.length := by
  obtain ⟨x, hx, -⟩ := h
  exact (List.getElem?_eq_some_iff.1 hx).1

theorem IsMissingAt.lt (h : IsMissingAt values i) : i < values.length := by
  obtain ⟨x, hx, -⟩ := h
  exact (List.getElem?_eq_some_iff.1 hx).1

theorem IsMissingAt.not_present (h : IsMissingAt values i) : ¬ IsPresentAt values i := by
  rintro ⟨y, hy, hpresent⟩
  obtain ⟨x, hx, hmissing⟩ := h
  obtain rfl := Option.some.inj (hx.symm.trans hy)
  cases hpresent.symm.trans hmissing

/-- A position has a value or misses it. -/
theorem present_or_missing (h : i < values.length) :
    IsPresentAt values i ∨ IsMissingAt values i := by
  have hx := List.getElem?_eq_getElem h
  cases hnan : values[i].isNaN with
  | false => exact .inl ⟨_, hx, hnan⟩
  | true => exact .inr ⟨_, hx, hnan⟩

theorem isMissingAt_iff : IsMissingAt values i ↔ i < values.length ∧ ¬ IsPresentAt values i :=
  ⟨fun h => ⟨h.lt, h.not_present⟩, fun h => (present_or_missing h.1).resolve_left h.2⟩

/-- Lists with the same values, and with values at the same positions, are equal. -/
theorem eq_of_present (hlength : others.length = values.length)
    (hkept : ∀ (i : Nat) (x : Float), values[i]? = some x → x.isNaN = false → others[i]? = some x)
    (h : ∀ i, IsPresentAt others i → IsPresentAt values i) : others = values := by
  refine List.ext_getElem? fun i => ?_
  by_cases hi : i < values.length
  · rcases present_or_missing hi with ⟨x, hx, hpresent⟩ | hmissing
    · rw [hx, hkept i x hx hpresent]
    · -- What is missing in both lists is the same.
      have hother : IsMissingAt others i :=
        isMissingAt_iff.2 ⟨hlength ▸ hi, fun hpresent => hmissing.not_present (h i hpresent)⟩
      obtain ⟨x, hx, hnan⟩ := hmissing
      obtain ⟨y, hy, hnan'⟩ := hother
      rw [hx, hy, Double.eq_missing hnan, Double.eq_missing hnan']
  · rw [List.getElem?_eq_none (by omega), List.getElem?_eq_none (by omega)]

/-- If there is a value before a position, there is a nearest one. -/
theorem exists_nearestBefore (hi : i ≤ values.length) (h : ∃ j < i, IsPresentAt values j) :
    ∃ x, IsNearestBefore values i x := by
  induction i with
  | zero => simp at h
  | succ i ih =>
    by_cases hlast : IsPresentAt values i
    · obtain ⟨x, hx, hpresent⟩ := hlast
      exact ⟨x, i, Nat.lt_succ_self i, hx, hpresent, fun k _ _ => by omega⟩
    · obtain ⟨j, hj, hpresent⟩ := h
      have hji : j < i := by
        rcases Nat.lt_succ_iff_lt_or_eq.1 hj with hj | rfl
        · exact hj
        · exact absurd hpresent hlast
      obtain ⟨x, l, hl, hx, hnan, hbetween⟩ := ih (by omega) ⟨j, hji, hpresent⟩
      refine ⟨x, l, by omega, hx, hnan, fun k hlk hk => ?_⟩
      rcases Nat.lt_succ_iff_lt_or_eq.1 hk with hk | rfl
      · exact hbetween k hlk hk
      · exact isMissingAt_iff.2 ⟨hi, hlast⟩

theorem IsNearestBefore.exists_present (h : IsNearestBefore values i x) :
    ∃ j < i, IsPresentAt values j := by
  obtain ⟨j, hj, hx, hpresent, -⟩ := h
  exact ⟨j, hj, x, hx, hpresent⟩

/-! ### The same list backwards -/

theorem getElem?_mirror (h : i < values.length) :
    values.reverse[values.length - 1 - i]? = values[i]? := by
  rw [List.getElem?_reverse (by omega)]
  congr 1
  omega

theorem isPresentAt_mirror (h : i < values.length) :
    IsPresentAt values.reverse (values.length - 1 - i) ↔ IsPresentAt values i := by
  simp only [IsPresentAt, getElem?_mirror h]

theorem isMissingAt_mirror (h : i < values.length) :
    IsMissingAt values.reverse (values.length - 1 - i) ↔ IsMissingAt values i := by
  simp only [IsMissingAt, getElem?_mirror h]

/-- The nearest value after a position is the nearest one before it from the other end. -/
theorem isNearestBefore_mirror (h : i < values.length) :
    IsNearestBefore values.reverse (values.length - 1 - i) x ↔ IsNearestAfter values i x := by
  constructor
  · rintro ⟨j, hj, hx, hpresent, hbetween⟩
    have hlast : j = values.length - 1 - (values.length - 1 - j) := by omega
    rw [hlast, getElem?_mirror (by omega)] at hx
    refine ⟨values.length - 1 - j, by omega, hx, hpresent, fun k hik hkj => ?_⟩
    exact (isMissingAt_mirror (by omega)).1 (hbetween _ (by omega) (by omega))
  · rintro ⟨j, hj, hx, hpresent, hbetween⟩
    have hjlt := (List.getElem?_eq_some_iff.1 hx).1
    refine ⟨values.length - 1 - j, by omega, (getElem?_mirror hjlt).trans hx, hpresent,
      fun k hjk hki => ?_⟩
    have hlast : k = values.length - 1 - (values.length - 1 - k) := by omega
    rw [hlast]
    exact (isMissingAt_mirror (by omega)).2 (hbetween _ (by omega) (by omega))

end

namespace FillMethod

variable {values : List Float} {i : Nat} {x y : Float} {last : Option Float}

/-! ### What each method gives -/

theorem carry_cons_of_present (hpresent : x.isNaN = false) (rest : List Float) :
    carry last (x :: rest) = x :: carry (some x) rest := if_neg (Bool.eq_false_iff.1 hpresent)

theorem carry_cons_of_missing (hmissing : x.isNaN = true) (rest : List Float) :
    carry last (x :: rest) = last.getD x :: carry last rest := if_pos hmissing

theorem getElem?_carry_of_present (hx : values[i]? = some x) (hpresent : x.isNaN = false) :
    (carry last values)[i]? = some x := by
  induction values generalizing last i with
  | nil => simp at hx
  | cons v rest ih =>
    cases i with
    | zero =>
      obtain rfl := Option.some.inj hx
      rw [carry_cons_of_present hpresent]
      rfl
    | succ i =>
      rw [carry]
      split <;> exact ih hx

/-- With no value before it a missing one becomes what is carried from further back. -/
theorem getElem?_carry_of_first (hx : values[i]? = some x) (hmissing : x.isNaN = true)
    (h : ∀ j < i, IsMissingAt values j) : (carry last values)[i]? = some (last.getD x) := by
  induction values generalizing last i with
  | nil => simp at hx
  | cons v rest ih =>
    cases i with
    | zero =>
      obtain rfl := Option.some.inj hx
      rw [carry_cons_of_missing hmissing]
      rfl
    | succ i =>
      obtain ⟨w, hw, hnan⟩ := h 0 (Nat.succ_pos i)
      obtain rfl := Option.some.inj hw
      rw [carry_cons_of_missing hnan]
      exact ih hx fun j hj => h (j + 1) (Nat.succ_lt_succ hj)

/-- **A missing value becomes the nearest one before it.** -/
theorem getElem?_carry_of_nearest (hmissing : IsMissingAt values i)
    (h : IsNearestBefore values i y) : (carry last values)[i]? = some y := by
  induction values generalizing last i with
  | nil => exact absurd hmissing.lt (Nat.not_lt_zero i)
  | cons v rest ih =>
    obtain ⟨j, hj, hy, hpresent, hbetween⟩ := h
    cases i with
    | zero => exact absurd hj (Nat.not_lt_zero j)
    | succ i =>
      cases j with
      | zero =>
        obtain rfl := Option.some.inj hy
        obtain ⟨x, hx, hnan⟩ := hmissing
        rw [carry_cons_of_present hpresent]
        exact getElem?_carry_of_first hx hnan fun k hk =>
          hbetween (k + 1) (Nat.succ_pos k) (Nat.succ_lt_succ hk)
      | succ j =>
        have hnearest : IsNearestBefore rest i y := ⟨j, Nat.lt_of_succ_lt_succ hj, hy, hpresent,
          fun k hjk hki => hbetween (k + 1) (Nat.succ_lt_succ hjk) (Nat.succ_lt_succ hki)⟩
        rw [carry]
        split <;> exact ih hmissing hnearest

theorem getElem?_backward (h : i < values.length) : (apply values backward)[i]? =
    (apply values.reverse forward)[values.length - 1 - i]? := by
  rw [apply, apply, List.getElem?_reverse (by simpa using h), length_carry, List.length_reverse]

theorem getElem?_value_of_present (fill : Float) (hx : values[i]? = some x)
    (hpresent : x.isNaN = false) : (apply values (value fill))[i]? = some x := by
  rw [apply, List.getElem?_map, hx, Option.map_some, if_neg (Bool.eq_false_iff.1 hpresent)]

theorem getElem?_value_of_missing (fill : Float) (hmissing : IsMissingAt values i) :
    (apply values (value fill))[i]? = some fill := by
  obtain ⟨x, hx, hnan⟩ := hmissing
  rw [apply, List.getElem?_map, hx, Option.map_some, if_pos hnan]

/-- **No method changes a value that is there.** -/
theorem getElem?_apply_of_present (m : FillMethod) (hx : values[i]? = some x)
    (hpresent : x.isNaN = false) : (apply values m)[i]? = some x := by
  cases m with
  | forward => exact getElem?_carry_of_present hx hpresent
  | backward =>
    have hi := (List.getElem?_eq_some_iff.1 hx).1
    rw [getElem?_backward hi]
    exact getElem?_carry_of_present ((getElem?_mirror hi).trans hx) hpresent
  | value fill => exact getElem?_value_of_present fill hx hpresent

theorem isPresentAt_apply (m : FillMethod) (h : IsPresentAt values i) :
    IsPresentAt (apply values m) i := by
  obtain ⟨x, hx, hpresent⟩ := h
  exact ⟨x, getElem?_apply_of_present m hx hpresent, hpresent⟩

/-- **A missing value stays missing just if there is none before it.** -/
theorem isMissingAt_forward_iff (h : IsMissingAt values i) :
    IsMissingAt (apply values forward) i ↔ ∀ x, ¬ IsNearestBefore values i x := by
  constructor
  · intro hmissing x hx
    refine hmissing.not_present ⟨x, getElem?_carry_of_nearest h hx, ?_⟩
    exact hx.elim fun _ h => h.2.2.1
  · intro hnone
    have hbefore (j : Nat) (hj : j < i) : IsMissingAt values j := by
      refine isMissingAt_iff.2 ⟨hj.trans h.lt, fun hpresent => ?_⟩
      obtain ⟨x, hx⟩ := exists_nearestBefore h.lt.le ⟨j, hj, hpresent⟩
      exact hnone x hx
    obtain ⟨x, hx, hnan⟩ := h
    exact ⟨x, getElem?_carry_of_first hx hnan hbefore, hnan⟩

theorem isMissingAt_backward (h : i < values.length) : IsMissingAt (apply values backward) i ↔
    IsMissingAt (apply values.reverse forward) (values.length - 1 - i) := by
  simp only [IsMissingAt, getElem?_backward h]

/-- A value that is carried back comes from the nearest one after. -/
theorem getElem?_backward_of_nearest (h : IsMissingAt values i) (hy : IsNearestAfter values i y) :
    (apply values backward)[i]? = some y := by
  rw [getElem?_backward h.lt]
  exact getElem?_carry_of_nearest ((isMissingAt_mirror h.lt).2 h) ((isNearestBefore_mirror h.lt).2 hy)

theorem isMissingAt_backward_iff (h : IsMissingAt values i) :
    IsMissingAt (apply values backward) i ↔ ∀ x, ¬ IsNearestAfter values i x := by
  rw [isMissingAt_backward h.lt, isMissingAt_forward_iff ((isMissingAt_mirror h.lt).2 h)]
  simp only [isNearestBefore_mirror h.lt]

/-! ### Where there is a value after a method -/

theorem isPresentAt_forward : IsPresentAt (apply values forward) i ↔
    i < values.length ∧ ∃ j ≤ i, IsPresentAt values j := by
  constructor
  · intro h
    have hi : i < values.length := by simpa using h.lt
    refine ⟨hi, ?_⟩
    by_contra hnone
    have hmissing : IsMissingAt values i :=
      isMissingAt_iff.2 ⟨hi, fun hpresent => hnone ⟨i, le_rfl, hpresent⟩⟩
    refine ((isMissingAt_forward_iff hmissing).2 fun x hx => ?_).not_present h
    obtain ⟨j, hj, hpresent⟩ := hx.exists_present
    exact hnone ⟨j, hj.le, hpresent⟩
  · rintro ⟨hi, j, hj, hpresent⟩
    rcases present_or_missing hi with hself | hmissing
    · exact isPresentAt_apply forward hself
    · have hji : j < i := lt_of_le_of_ne hj fun heq => hmissing.not_present (heq ▸ hpresent)
      obtain ⟨x, hx⟩ := exists_nearestBefore hi.le ⟨j, hji, hpresent⟩
      exact ⟨x, getElem?_carry_of_nearest hmissing hx, hx.elim fun _ h => h.2.2.1⟩

theorem isPresentAt_backward : IsPresentAt (apply values backward) i ↔
    ∃ j ≥ i, IsPresentAt values j := by
  by_cases hi : i < values.length
  · have hmirror : IsPresentAt (apply values backward) i ↔
        IsPresentAt (apply values.reverse forward) (values.length - 1 - i) := by
      simp only [IsPresentAt, getElem?_backward hi]
    rw [hmirror, isPresentAt_forward, List.length_reverse]
    constructor
    · rintro ⟨-, j, hj, hpresent⟩
      have hlast : j = values.length - 1 - (values.length - 1 - j) := by omega
      rw [hlast, isPresentAt_mirror (by omega)] at hpresent
      exact ⟨values.length - 1 - j, by omega, hpresent⟩
    · rintro ⟨j, hj, hpresent⟩
      have hjlt := hpresent.lt
      exact ⟨by omega, values.length - 1 - j, by omega, (isPresentAt_mirror hjlt).2 hpresent⟩
  · refine iff_of_false (fun h => hi (by simpa using h.lt)) ?_
    rintro ⟨j, hj, hpresent⟩
    exact hi (hj.trans_lt hpresent.lt)

theorem isPresentAt_value (hx : x.isNaN = false) :
    IsPresentAt (apply values (value x)) i ↔ i < values.length := by
  refine ⟨fun h => by simpa using h.lt, fun hi => ?_⟩
  rcases present_or_missing hi with hpresent | hmissing
  · exact isPresentAt_apply _ hpresent
  · exact ⟨x, getElem?_value_of_missing x hmissing, hx⟩

/-- To fill with a missing value is to do nothing. -/
theorem apply_value_of_missing (hx : x.isNaN = true) : apply values (value x) = values := by
  rw [apply, List.map_congr_left, List.map_id]
  intro y _
  split
  · rename_i hy
    rw [Double.eq_missing hx, Double.eq_missing hy]
    rfl
  · rfl

/-! ### Settled values -/

/-- **Whether a method has nothing left to do.** -/
def IsSettled (m : FillMethod) (values : List Float) : Prop := apply values m = values

/-- Values are settled if the method fills no point that misses its value. -/
theorem isSettled_iff {m : FillMethod} : m.IsSettled values ↔
    ∀ i, IsPresentAt (apply values m) i → IsPresentAt values i := by
  refine ⟨fun h i hi => ?_, eq_of_present (length_apply values m) fun i x =>
    getElem?_apply_of_present m⟩
  rwa [h] at hi

theorem isSettled_forward_iff : forward.IsSettled values ↔
    ∀ i j, j ≤ i → i < values.length → IsPresentAt values j → IsPresentAt values i := by
  simp only [isSettled_iff, isPresentAt_forward]
  exact ⟨fun h i j hj hi hpresent => h i ⟨hi, j, hj, hpresent⟩,
    fun h i ⟨hi, j, hj, hpresent⟩ => h i j hj hi hpresent⟩

theorem isSettled_backward_iff : backward.IsSettled values ↔
    ∀ i j, i ≤ j → IsPresentAt values j → IsPresentAt values i := by
  simp only [isSettled_iff, isPresentAt_backward]
  exact ⟨fun h i j hj hpresent => h i ⟨j, hj, hpresent⟩,
    fun h i ⟨j, hj, hpresent⟩ => h i j hj hpresent⟩

/-- Values of which none is missing are settled for every method. -/
theorem isSettled_of_complete (m : FillMethod) (h : ∀ i < values.length, IsPresentAt values i) :
    m.IsSettled values :=
  isSettled_iff.2 fun i hi => h i (by simpa using hi.lt)

theorem isSettled_value_iff : (value x).IsSettled values ↔
    x.isNaN = true ∨ ∀ i < values.length, IsPresentAt values i := by
  cases hx : x.isNaN with
  | false => simp [isSettled_iff, isPresentAt_value hx]
  | true => simp [IsSettled, apply_value_of_missing hx]

/-- **Applying a method settles it.** -/
theorem isSettled_apply_self (m : FillMethod) (values : List Float) :
    m.IsSettled (apply values m) := by
  cases m with
  | forward =>
    simp only [isSettled_forward_iff, isPresentAt_forward, length_apply]
    exact fun i j hj hi ⟨_, k, hk, hpresent⟩ => ⟨hi, k, hk.trans hj, hpresent⟩
  | backward =>
    simp only [isSettled_backward_iff, isPresentAt_backward]
    exact fun i j hj ⟨k, hk, hpresent⟩ => ⟨k, hj.trans hk, hpresent⟩
  | value x =>
    rw [isSettled_value_iff]
    cases hx : x.isNaN with
    | false => exact .inr fun i hi => (isPresentAt_value hx).2 (by simpa using hi)
    | true => exact .inl rfl

/-- A fixed value fills all gaps or none. -/
theorem IsSettled.apply_value {m : FillMethod} (h : m.IsSettled values) (x : Float) :
    m.IsSettled (apply values (value x)) := by
  cases hx : x.isNaN with
  | false =>
    exact isSettled_of_complete m fun i hi => (isPresentAt_value hx).2 (by simpa using hi)
  | true => rwa [apply_value_of_missing hx]

/-- **What is settled stays settled**, whatever method comes after. -/
theorem IsSettled.apply {m : FillMethod} (h : m.IsSettled values) (m' : FillMethod) :
    m.IsSettled (FillMethod.apply values m') := by
  cases m with
  | forward =>
    cases m' with
    | forward => exact isSettled_apply_self forward values
    | backward =>
      rw [isSettled_forward_iff] at h
      simp only [isSettled_forward_iff, isPresentAt_backward, length_apply]
      rintro i j hj hi ⟨k, hk, hpresent⟩
      rcases le_total i k with hik | hki
      · exact ⟨k, hik, hpresent⟩
      · exact ⟨i, le_rfl, h i k hki hi hpresent⟩
    | value x => exact h.apply_value x
  | backward =>
    cases m' with
    | forward =>
      rw [isSettled_backward_iff] at h
      simp only [isSettled_backward_iff, isPresentAt_forward]
      rintro i j hj ⟨hjlt, k, hk, hpresent⟩
      refine ⟨hj.trans_lt hjlt, ?_⟩
      rcases le_total k i with hki | hik
      · exact ⟨k, hki, hpresent⟩
      · exact ⟨i, le_rfl, h i k hik hpresent⟩
    | backward => exact isSettled_apply_self backward values
    | value x => exact h.apply_value x
  | value x =>
    refine isSettled_value_iff.2 ((isSettled_value_iff.1 h).imp_right fun hcomplete i hi => ?_)
    exact isPresentAt_apply m' (hcomplete i (by simpa using hi))

end FillMethod

namespace FillPolicy

open FillMethod

variable {values : List Float} {methods : List FillMethod} {m : FillMethod} {i : Nat} {x : Float}

/-! ### Several methods -/

theorem getElem?_foldl_of_present (methods : List FillMethod) (hx : values[i]? = some x)
    (hpresent : x.isNaN = false) : (methods.foldl FillMethod.apply values)[i]? = some x := by
  induction methods generalizing values with
  | nil => exact hx
  | cons m rest ih => exact ih (getElem?_apply_of_present m hx hpresent)

theorem isSettled_foldl (h : m.IsSettled values) (methods : List FillMethod) :
    m.IsSettled (methods.foldl FillMethod.apply values) := by
  induction methods generalizing values with
  | nil => exact h
  | cons m' rest ih => exact ih (h.apply m')

/-- **What a policy leaves is settled** for each of its methods. -/
theorem isSettled_apply {p : FillPolicy} (hm : m ∈ p.methods) (values : List Float) :
    m.IsSettled (p.apply values) := by
  obtain ⟨methods⟩ := p
  change m.IsSettled (methods.foldl FillMethod.apply values)
  induction methods generalizing values with
  | nil => simp at hm
  | cons m' rest ih =>
    rcases List.mem_cons.1 hm with rfl | hm
    · exact isSettled_foldl (isSettled_apply_self m values) rest
    · exact ih (FillMethod.apply values m') hm

theorem foldl_of_settled (h : ∀ m ∈ methods, m.IsSettled values) :
    methods.foldl FillMethod.apply values = values := by
  induction methods with
  | nil => rfl
  | cons m rest ih =>
    obtain ⟨hm, hrest⟩ := List.forall_mem_cons.1 h
    rw [List.foldl_cons, hm, ih hrest]

/-- Filling what a policy leaves by it again changes nothing. -/
theorem apply_apply (p : FillPolicy) (values : List Float) :
    p.apply (p.apply values) = p.apply values :=
  foldl_of_settled fun _ hm => isSettled_apply hm values

/-- **Values that are carried both ways reach every point.** -/
theorem complete_apply {p : FillPolicy} (hforward : .forward ∈ p.methods)
    (hbackward : .backward ∈ p.methods) (h : IsPresentAt values i) :
    ∀ j < values.length, IsPresentAt (p.apply values) j := by
  intro j hj
  have hkept : IsPresentAt (p.apply values) i := by
    obtain ⟨x, hx, hpresent⟩ := h
    exact ⟨x, getElem?_foldl_of_present p.methods hx hpresent, hpresent⟩
  rcases le_total i j with hij | hji
  · exact isSettled_forward_iff.1 (isSettled_apply hforward values) j i hij (by simpa using hj) hkept
  · exact isSettled_backward_iff.1 (isSettled_apply hbackward values) j i hji hkept

end FillPolicy

namespace Series

/-! ### Series -/

theorem index_withValues (s : Series) {values : List Float} (h : values.length = s.values.length) :
    (s.withValues values).index = s.index := by
  refine congrArg TimeIndex.mk (List.map_fst_zip ?_)
  rw [h, Series.values, List.length_map, List.length_map]

theorem values_withValues (s : Series) {values : List Float} (h : values.length = s.values.length) :
    (s.withValues values).values = values := by
  refine List.map_snd_zip ?_
  rw [h, Series.values, List.length_map, List.length_map]

@[simp] theorem index_fill (s : Series) (p : FillPolicy) : (s.fill p).index = s.index :=
  s.index_withValues (p.length_apply s.values)

@[simp] theorem values_fill (s : Series) (p : FillPolicy) : (s.fill p).values = p.apply s.values :=
  s.values_withValues (p.length_apply s.values)

/-- **Filling twice is filling once.** -/
theorem fill_fill (s : Series) (p : FillPolicy) : (s.fill p).fill p = s.fill p := by
  have hstamps : (s.fill p).points.map (·.1) = s.points.map (·.1) :=
    congrArg TimeIndex.stamps (s.index_fill p)
  change (s.fill p).withValues (p.apply (s.fill p).values) = s.fill p
  rw [values_fill, FillPolicy.apply_apply, withValues, hstamps]
  rfl

/-- **Filling closes gaps only, from the nearest values, and once for all.** Whatever the policy, the
stamps stay and so does every value that is there, and filling again changes nothing. By itself, each
way of carrying values gives a missing point the nearest value on its side, and leaves it missing just
if there is none, and a fixed value is what every missing point gets. A policy that carries values both
ways leaves no gap if there is a value at all. -/
theorem fill_gaps (s : Series) :
    (∀ p : FillPolicy, (s.fill p).index = s.index ∧ (s.fill p).fill p = s.fill p ∧
      ∀ (i : Nat) (x : Float), s.values[i]? = some x → x.isNaN = false →
        (s.fill p).values[i]? = some x) ∧
    (∀ i, IsMissingAt s.values i →
      (∀ x, IsNearestBefore s.values i x → (s.fill ⟨[.forward]⟩).values[i]? = some x) ∧
      (IsMissingAt (s.fill ⟨[.forward]⟩).values i ↔ ∀ x, ¬ IsNearestBefore s.values i x) ∧
      (∀ x, IsNearestAfter s.values i x → (s.fill ⟨[.backward]⟩).values[i]? = some x) ∧
      (IsMissingAt (s.fill ⟨[.backward]⟩).values i ↔ ∀ x, ¬ IsNearestAfter s.values i x) ∧
      ∀ x, (s.fill ⟨[.value x]⟩).values[i]? = some x) ∧
    ∀ p : FillPolicy, .forward ∈ p.methods → .backward ∈ p.methods →
      (∃ x ∈ s.values, x.isNaN = false) → ∀ x ∈ (s.fill p).values, x.isNaN = false := by
  simp only [values_fill]
  refine ⟨fun p => ⟨s.index_fill p, s.fill_fill p, fun i x =>
    FillPolicy.getElem?_foldl_of_present p.methods⟩, fun i hmissing => ?_, ?_⟩
  · refine ⟨fun x => FillMethod.getElem?_carry_of_nearest hmissing,
      FillMethod.isMissingAt_forward_iff hmissing,
      fun x => FillMethod.getElem?_backward_of_nearest hmissing,
      FillMethod.isMissingAt_backward_iff hmissing,
      fun x => FillMethod.getElem?_value_of_missing x hmissing⟩
  · intro p hforward hbackward ⟨x, hx, hpresent⟩ y hy
    obtain ⟨i, hi⟩ := List.getElem?_of_mem hx
    obtain ⟨j, hj⟩ := List.getElem?_of_mem hy
    have hlt : j < s.values.length := by simpa using (List.getElem?_eq_some_iff.1 hj).1
    obtain ⟨z, hz, hnan⟩ :=
      FillPolicy.complete_apply hforward hbackward ⟨x, hi, hpresent⟩ j hlt
    obtain rfl := Option.some.inj (hj.symm.trans hz)
    exact hnan

end Series

end SeriesAlgebra
