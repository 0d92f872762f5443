import Mathlib.Data.List.TakeWhile
import SeriesAlgebra.Proofs.Series.Similar

/-!
# Cutting series

A window cuts a contiguous part out of a series. Of a series whose stamps are in order
that part is what lies in the window, point by point (`Series.points_window`), so that
windows can be applied in any order and as often as one likes.
-/

namespace SeriesAlgebra

/-! ### The positions of a window -/

namespace Window

/-- Whether a window begins after a stamp. -/
def isBefore (w : Window) (t : Stamp) : Bool := w.lower.any fun l => decide (t < l)

/-- Whether a window does not end before a stamp. -/
def isUntil (w : Window) (t : Stamp) : Bool := w.upper.all fun u => decide (t ≤ u)

theorem isBefore_iff {w : Window} {t : Stamp} :
    w.isBefore t = true ↔ ∃ l, w.lower = some l ∧ t < l := by
  unfold isBefore
  cases w.lower <;> simp

theorem isUntil_iff {w : Window} {t : Stamp} :
    w.isUntil t = true ↔ ∀ u, w.upper = some u → t ≤ u := by
  unfold isUntil
  cases w.upper <;> simp

theorem isBefore_of_lt {w : Window} {a b : Stamp} (hab : a < b) (hb : w.isBefore b = true) :
    w.isBefore a = true := by
  obtain ⟨l, hl, hlt⟩ := isBefore_iff.1 hb
  exact isBefore_iff.2 ⟨l, hl, Stamp.lt_trans hab hlt⟩

theorem isUntil_of_lt {w : Window} {a b : Stamp} (hab : a < b) (hb : w.isUntil b = true) :
    w.isUntil a = true := by
  refine isUntil_iff.2 fun u hu => ?_
  exact Stamp.le_trans (Stamp.le_iff_lt_or_eq.2 (Or.inl hab)) (isUntil_iff.1 hb u hu)

theorem contains_eq (w : Window) (t : Stamp) : w.contains t = (!w.isBefore t && w.isUntil t) := by
  unfold contains isBefore isUntil
  cases w.lower with
  | none => rfl
  | some l =>
    simp only [Option.all_some, Option.any_some]
    rw [← decide_not, decide_eq_decide.2 Stamp.not_lt]

end Window

/-- The positions of a window are told by two prefixes of the stamps. -/
theorem TimeIndex.range_eq (i : TimeIndex) (w : Window) : i.range w =
    ⟨(i.stamps.takeWhile w.isBefore).length,
      max (i.stamps.takeWhile w.isUntil).length (i.stamps.takeWhile w.isBefore).length⟩ := by
  have hstart : (w.lower.elim 0 fun lower =>
      (i.stamps.takeWhile fun t => decide (t < lower)).length) =
      (i.stamps.takeWhile w.isBefore).length := by
    unfold Window.isBefore
    cases w.lower with
    | none => cases i.stamps <;> rfl
    | some l => rfl
  have hstop : (w.upper.elim i.size fun upper =>
      (i.stamps.takeWhile fun t => decide (t ≤ upper)).length) =
      (i.stamps.takeWhile w.isUntil).length := by
    unfold Window.isUntil
    cases w.upper with
    | none => exact (congrArg List.length (List.takeWhile_eq_self_iff.2 fun _ _ => rfl)).symm
    | some u => rfl
  rw [← hstart, ← hstop]
  unfold range
  cases w.lower <;> cases w.upper <;> rfl

/-- The positions of a window lie within the index. -/
theorem TimeIndex.range_within (i : TimeIndex) (w : Window) :
    (i.range w).start ≤ (i.range w).stop ∧ (i.range w).stop ≤ i.size := by
  have htake (P : Stamp → Bool) : (i.stamps.takeWhile P).length ≤ i.size :=
    (List.takeWhile_sublist P).length_le
  rw [range_eq]
  exact ⟨Nat.le_max_right _ _, Nat.max_le.2 ⟨htake _, htake _⟩⟩

/-! ### Lists in order -/

section

variable {α : Type}

/-- Two prefixes of a list in order, the one cut off and the other kept. -/
theorem drop_take_takeWhile {P Q : Stamp → Bool} (hP : ∀ a b, a < b → P b = true → P a = true)
    (hQ : ∀ a b, a < b → Q b = true → Q a = true) {points : List (Stamp × α)}
    (h : (points.map (·.1)).Pairwise (· < ·)) :
    (points.take (max ((points.map (·.1)).takeWhile Q).length
      ((points.map (·.1)).takeWhile P).length)).drop ((points.map (·.1)).takeWhile P).length =
      points.filter fun p => !P p.1 && Q p.1 := by
  induction points with
  | nil => rfl
  | cons p rest ih =>
    obtain ⟨hhead, hrest⟩ := List.pairwise_cons.1 h
    have hafter {q : Stamp × α} (hq : q ∈ rest) : p.1 < q.1 := hhead _ (List.mem_map_of_mem hq)
    have ih := ih hrest
    rw [List.map_cons, List.takeWhile_cons, List.takeWhile_cons]
    cases hp : P p.1 with
    | true =>
      rw [if_pos rfl, List.filter_cons_of_neg (by simp [hp])]
      cases hq : Q p.1 with
      | true =>
        rw [if_pos rfl, List.length_cons, List.length_cons, Nat.add_max_add_right, List.take_succ_cons,
          List.drop_succ_cons]
        exact ih
      | false =>
        have hnone : (rest.filter fun q => !P q.1 && Q q.1) = [] := by
          refine List.filter_eq_nil_iff.2 fun q hmem hkept => ?_
          rw [Bool.and_eq_true] at hkept
          rw [hQ _ _ (hafter hmem) hkept.2] at hq
          cases hq
        rw [if_neg Bool.false_ne_true, hnone, List.length_nil, List.length_cons, Nat.zero_max,
          List.take_succ_cons, List.drop_succ_cons, List.drop_take, Nat.sub_self, List.take_zero]
    | false =>
      rw [if_neg Bool.false_ne_true, List.length_nil, Nat.max_zero, List.drop_zero]
      have hkept (q : Stamp × α) (hmem : q ∈ rest) : P q.1 = false := by
        by_contra hq
        rw [hP _ _ (hafter hmem) (by simpa using hq)] at hp
        cases hp
      cases hq : Q p.1 with
      | true =>
        have hzero : ((rest.map (·.1)).takeWhile P).length = 0 := by
          cases rest with
          | nil => rfl
          | cons q rest => rw [List.map_cons, List.takeWhile_cons, hkept q List.mem_cons_self]; rfl
        rw [hzero, Nat.max_zero, List.drop_zero] at ih
        rw [if_pos rfl, List.length_cons, List.take_succ_cons, ih,
          List.filter_cons_of_pos (by simp [hp, hq])]
      | false =>
        rw [if_neg Bool.false_ne_true, List.length_nil, List.take_zero]
        refine (List.filter_eq_nil_iff.2 fun q hmem hall => ?_).symm
        rw [Bool.and_eq_true] at hall
        rcases List.mem_cons.1 hmem with rfl | hmem
        · rw [hq] at hall
          exact Bool.false_ne_true hall.2
        · rw [hQ _ _ (hafter hmem) hall.2] at hq
          cases hq

/-- **The part of a list in order at the positions of a window** is what lies in the window. -/
theorem slice_range (w : Window) {points : List (Stamp × α)}
    (h : (points.map (·.1)).Pairwise (· < ·)) :
    slice ((⟨points.map (·.1)⟩ : TimeIndex).range w) points =
      points.filter fun p => w.contains p.1 := by
  rw [TimeIndex.range_eq]
  simp only [Window.contains_eq]
  exact drop_take_takeWhile (fun _ _ => Window.isBefore_of_lt) (fun _ _ => Window.isUntil_of_lt) h

end

/-- No stamp of a chain is out of order. -/
theorem TimeIndex.firstUnsorted?_eq_none_iff {stamps : List Stamp} (position : Nat) :
    firstUnsorted? stamps position = none ↔ stamps.IsChain (· < ·) := by
  induction stamps, position using firstUnsorted?.induct with
  | case1 a b rest position hlt ih =>
    rw [firstUnsorted?, if_pos hlt, ih, List.isChain_cons_cons]
    exact (and_iff_right hlt).symm
  | case2 a b rest position hlt =>
    rw [firstUnsorted?, if_neg hlt, List.isChain_cons_cons]
    exact iff_of_false (Option.some_ne_none _) fun h => hlt h.1
  | case3 stamps position hshort =>
    match stamps, hshort with
    | [], _ => exact iff_of_true rfl .nil
    | [a], _ => exact iff_of_true rfl (.singleton a)
    | a :: b :: rest, hshort => exact (hshort a b rest rfl).elim

/-- **Stamps are refused unless they are in order.** -/
theorem TimeIndex.ofSorted?_ok_iff {stamps : List Stamp} {index : TimeIndex} :
    ofSorted? stamps = .ok index ↔ stamps.Pairwise (· < ·) ∧ index = ⟨stamps⟩ := by
  have htrans : IsTrans Stamp (· < ·) := ⟨fun _ _ _ => Stamp.lt_trans⟩
  rw [← List.isChain_iff_pairwise, ← firstUnsorted?_eq_none_iff 0]
  unfold ofSorted?
  cases firstUnsorted? stamps 0 with
  | some position =>
    refine iff_of_false (fun h => ?_) fun h => Option.some_ne_none _ h.1
    cases h
  | none => exact ⟨fun h => ⟨rfl, (Except.ok.inj h).symm⟩, fun h => congrArg Except.ok h.2.symm⟩

namespace Series

variable {s t : Series}

/-- **The points of a series in a window.** -/
theorem points_window (h : s.IsSorted) (w : Window) :
    (s.window w).points = s.points.filter fun p => w.contains p.1 := by
  unfold window
  split
  · rename_i hunbounded
    have hcontains (t : Stamp) : w.contains t = true := by
      unfold Window.isUnbounded at hunbounded
      unfold Window.contains
      cases hl : w.lower <;> cases hu : w.upper <;> simp [hl, hu] at hunbounded ⊢
    exact (List.filter_eq_self.2 fun p _ => hcontains p.1).symm
  · exact slice_range w h

@[simp] theorem options_window (w : Window) : (s.window w).options = s.options := by
  unfold window
  split <;> rfl

@[simp] theorem window_unbounded : s.window .unbounded = s := rfl

theorem isSorted_of_sublist (h : s.IsSorted) (hpoints : t.points.Sublist s.points) : t.IsSorted :=
  List.Pairwise.sublist (hpoints.map _) h

theorem isSorted_window (h : s.IsSorted) (w : Window) : (s.window w).IsSorted := by
  refine isSorted_of_sublist h ?_
  rw [points_window h]
  exact List.filter_sublist

/-- **The points of a series are refused unless they are in order.** -/
theorem ofPoints?_ok_iff {name : String} {points : List (Stamp × Float)} :
    ofPoints? name points = .ok s ↔
      (points.map (·.1)).Pairwise (· < ·) ∧ s = ofPoints name points := by
  unfold ofPoints?
  constructor
  · intro h
    cases hindex : TimeIndex.ofSorted? (points.map (·.1)) with
    | error e =>
      rw [hindex] at h
      cases h
    | ok index =>
      rw [hindex] at h
      exact ⟨(TimeIndex.ofSorted?_ok_iff.1 hindex).1, (Except.ok.inj h).symm⟩
  · rintro ⟨hsorted, rfl⟩
    rw [TimeIndex.ofSorted?_ok_iff.2 ⟨hsorted, rfl⟩]

theorem isSorted_of_ofPoints? {name : String} {points : List (Stamp × Float)}
    (h : ofPoints? name points = .ok s) : s.IsSorted := by
  obtain ⟨hsorted, rfl⟩ := ofPoints?_ok_iff.1 h
  exact hsorted

theorem unset_of_ofPoints? {name : String} {points : List (Stamp × Float)}
    (h : ofPoints? name points = .ok s) : s.options = .unset := by
  obtain ⟨-, rfl⟩ := ofPoints?_ok_iff.1 h
  rfl

/-- A series without points has none in a window. -/
theorem window_of_isEmpty (h : s.isEmpty = true) (w : Window) : (s.window w).points = [] := by
  have hnil : s.points = [] := List.isEmpty_iff.1 h
  unfold window
  split
  · exact hnil
  · rw [withPoints, hnil, slice, List.take_nil, List.drop_nil]

end Series

end SeriesAlgebra
