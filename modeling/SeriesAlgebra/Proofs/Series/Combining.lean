import SeriesAlgebra.Proofs.Series.Values
import SeriesAlgebra.TimeIndex.Alignment

/-!
# Arithmetic stamp by stamp

Arithmetic of two series goes down the merged rows of their indexes. The rows are in
order, their stamps are those of either index, and each has the positions of its stamp in
both (`Alignment.Merges`). So arithmetic always succeeds, and the result has a point
wherever one of the two series has one, of what the two have there (`Series.combine_ok`).
-/

namespace SeriesAlgebra

namespace Alignment

/-! ### Positions -/

/-- The position of a stamp in a list, of which the first has a given position. -/
def positionFrom (i : Nat) (stamps : List Stamp) (t : Stamp) : Option Nat :=
  (stamps.idxOf? t).map (· + i)

theorem positionFrom_self (i : Nat) (a : Stamp) (as : List Stamp) :
    positionFrom i (a :: as) a = some i := by
  rw [positionFrom, List.idxOf?_cons, beq_self_eq_true, if_pos rfl, Option.map_some, Nat.zero_add]

theorem positionFrom_cons {a t : Stamp} (h : t ≠ a) (i : Nat) (as : List Stamp) :
    positionFrom i (a :: as) t = positionFrom (i + 1) as t := by
  unfold positionFrom
  rw [List.idxOf?_cons, beq_eq_false_iff_ne.2 h.symm, if_neg Bool.false_ne_true, Option.map_map]
  congr 1
  funext n
  exact Nat.add_right_comm n 1 i

theorem positionFrom_eq_none {t : Stamp} {as : List Stamp} (h : t ∉ as) (i : Nat) :
    positionFrom i as t = none := by
  rw [positionFrom, List.idxOf?_eq_none_iff.2 h, Option.map_none]

/-! ### Rows -/

/-- **What merged rows are**: in order, of the stamps of both lists, with the positions there. -/
structure Merges (i : Nat) (as : List Stamp) (j : Nat) (bs : List Stamp) (rows : List Row) :
    Prop where
  sorted : (rows.map Row.stamp).Pairwise (· < ·)
  mem : ∀ t, t ∈ rows.map Row.stamp ↔ t ∈ as ∨ t ∈ bs
  left : ∀ r ∈ rows, r.left = positionFrom i as r.stamp
  right : ∀ r ∈ rows, r.right = positionFrom j bs r.stamp

variable {i j : Nat} {a b : Stamp} {as bs : List Stamp} {rows : List Row}

theorem Merges.mem_of_row (h : Merges i as j bs rows) {r : Row} (hr : r ∈ rows) :
    r.stamp ∈ as ∨ r.stamp ∈ bs := (h.mem _).1 (List.mem_map_of_mem hr)

theorem not_mem_of_lt (h : ∀ t ∈ as, a < t) : a ∉ as := fun ha => Stamp.lt_irrefl a (h a ha)

/-- A row of both lists before the others. -/
theorem Merges.both (h : Merges (i + 1) as (j + 1) bs rows) (has : ∀ t ∈ as, a < t)
    (hbs : ∀ t ∈ bs, a < t) : Merges i (a :: as) j (a :: bs) (⟨a, some i, some j⟩ :: rows) := by
  have hafter : ∀ r ∈ rows, a < r.stamp := fun r hr =>
    (h.mem_of_row hr).elim (has _) (hbs _)
  refine ⟨?_, fun t => ?_, fun r hr => ?_, fun r hr => ?_⟩
  · refine List.pairwise_cons.2 ⟨fun t ht => ?_, h.sorted⟩
    obtain ⟨r, hr, rfl⟩ := List.mem_map.1 ht
    exact hafter r hr
  · rw [List.map_cons, List.mem_cons, h.mem, List.mem_cons, List.mem_cons, or_or_distrib_left]
  · rcases List.mem_cons.1 hr with rfl | hr
    · exact (positionFrom_self i a as).symm
    · rw [positionFrom_cons (OrderedMap.ne_of_lt (hafter r hr)).symm, h.left r hr]
  · rcases List.mem_cons.1 hr with rfl | hr
    · exact (positionFrom_self j a bs).symm
    · rw [positionFrom_cons (OrderedMap.ne_of_lt (hafter r hr)).symm, h.right r hr]

/-- A row of the left list before the others. -/
theorem Merges.leftOnly (h : Merges (i + 1) as j bs rows) (has : ∀ t ∈ as, a < t)
    (hbs : ∀ t ∈ bs, a < t) : Merges i (a :: as) j bs (⟨a, some i, none⟩ :: rows) := by
  have hafter : ∀ r ∈ rows, a < r.stamp := fun r hr =>
    (h.mem_of_row hr).elim (has _) (hbs _)
  refine ⟨?_, fun t => ?_, fun r hr => ?_, fun r hr => ?_⟩
  · refine List.pairwise_cons.2 ⟨fun t ht => ?_, h.sorted⟩
    obtain ⟨r, hr, rfl⟩ := List.mem_map.1 ht
    exact hafter r hr
  · rw [List.map_cons, List.mem_cons, h.mem, List.mem_cons, or_assoc]
  · rcases List.mem_cons.1 hr with rfl | hr
    · exact (positionFrom_self i a as).symm
    · rw [positionFrom_cons (OrderedMap.ne_of_lt (hafter r hr)).symm, h.left r hr]
  · rcases List.mem_cons.1 hr with rfl | hr
    · exact (positionFrom_eq_none (not_mem_of_lt hbs) j).symm
    · exact h.right r hr

/-- A row of the right list before the others. -/
theorem Merges.rightOnly (h : Merges i as (j + 1) bs rows) (has : ∀ t ∈ as, b < t)
    (hbs : ∀ t ∈ bs, b < t) : Merges i as j (b :: bs) (⟨b, none, some j⟩ :: rows) := by
  have hafter : ∀ r ∈ rows, b < r.stamp := fun r hr =>
    (h.mem_of_row hr).elim (has _) (hbs _)
  refine ⟨?_, fun t => ?_, fun r hr => ?_, fun r hr => ?_⟩
  · refine List.pairwise_cons.2 ⟨fun t ht => ?_, h.sorted⟩
    obtain ⟨r, hr, rfl⟩ := List.mem_map.1 ht
    exact hafter r hr
  · rw [List.map_cons, List.mem_cons, h.mem, List.mem_cons, or_left_comm]
  · rcases List.mem_cons.1 hr with rfl | hr
    · exact (positionFrom_eq_none (not_mem_of_lt has) i).symm
    · exact h.left r hr
  · rcases List.mem_cons.1 hr with rfl | hr
    · exact (positionFrom_self j b bs).symm
    · rw [positionFrom_cons (OrderedMap.ne_of_lt (hafter r hr)).symm, h.right r hr]

/-! ### Merging -/

theorem merges_rightRows (i : Nat) (j : Nat) {bs : List Stamp} (hbs : bs.Pairwise (· < ·)) :
    Merges i [] j bs (rightRows j bs) := by
  induction bs generalizing j with
  | nil => exact ⟨.nil, by simp [rightRows], nofun, nofun⟩
  | cons b bs ih =>
    obtain ⟨hhead, hrest⟩ := List.pairwise_cons.1 hbs
    exact (ih (j + 1) hrest).rightOnly nofun hhead

theorem merges_mergeInto {following : Nat → List Stamp → List Row} (has : ∀ t ∈ as, a < t)
    (hfollowing : ∀ j bs, bs.Pairwise (· < ·) → Merges (i + 1) as j bs (following j bs)) (j : Nat)
    (hbs : bs.Pairwise (· < ·)) : Merges i (a :: as) j bs (mergeInto a i following j bs) := by
  induction bs generalizing j with
  | nil => exact (hfollowing j [] .nil).leftOnly has nofun
  | cons b bs ih =>
    obtain ⟨hhead, hrest⟩ := List.pairwise_cons.1 hbs
    rw [mergeInto]
    split
    · rename_i hab
      subst hab
      exact (hfollowing (j + 1) bs hrest).both has hhead
    · rename_i hne
      split
      · rename_i hlt
        refine (hfollowing j (b :: bs) hbs).leftOnly has fun t ht => ?_
        rcases List.mem_cons.1 ht with rfl | ht
        · exact hlt
        · exact Stamp.lt_trans hlt (hhead t ht)
      · rename_i hnlt
        have hlt : b < a :=
          (Stamp.le_iff_lt_or_eq.1 (Stamp.not_lt.1 hnlt)).resolve_right fun h => hne h.symm
        refine (ih (j + 1) hrest).rightOnly (fun t ht => ?_) hhead
        rcases List.mem_cons.1 ht with rfl | ht
        · exact hlt
        · exact Stamp.lt_trans hlt (has t ht)

/-- **Merging lists in order.** -/
theorem merges_mergeRows (i : Nat) (has : as.Pairwise (· < ·)) (j : Nat)
    (hbs : bs.Pairwise (· < ·)) : Merges i as j bs (mergeRows i as j bs) := by
  induction as generalizing i j bs with
  | nil => exact merges_rightRows i j hbs
  | cons a as ih =>
    obtain ⟨hhead, hrest⟩ := List.pairwise_cons.1 has
    exact merges_mergeInto hhead (fun j bs hbs => ih (i + 1) hrest j hbs) j hbs

section

variable {left right : TimeIndex} (hleft : left.IsSorted) (hright : right.IsSorted)
include hleft hright

theorem isSorted_merge : (merge left right).union.IsSorted := (merges_mergeRows 0 hleft 0 hright).sorted

theorem mem_merge (t : Stamp) :
    t ∈ (merge left right).union.stamps ↔ t ∈ left.stamps ∨ t ∈ right.stamps :=
  (merges_mergeRows 0 hleft 0 hright).mem t

/-- **Merging gives every stamp its positions** in both indexes. -/
theorem positions_merge :
    (merge left right).left = left.positionsIn (merge left right).union ∧
      (merge left right).right = right.positionsIn (merge left right).union := by
  have hrows := merges_mergeRows 0 hleft 0 hright
  have hzero (index : TimeIndex) (t : Stamp) :
      positionFrom 0 index.stamps t = index.position? t := congrFun Option.map_id _
  unfold merge ofRows TimeIndex.positionsIn
  simp only [List.map_map]
  exact ⟨List.map_congr_left fun row hrow => (hrows.left row hrow).trans (hzero left row.stamp),
    List.map_congr_left fun row hrow => (hrows.right row hrow).trans (hzero right row.stamp)⟩

end

end Alignment

namespace Series

open SeriesAlgebra.Alignment

variable {s r : Series} {t : Stamp}

/-- What a series says at a stamp is what it has at the position of the stamp. -/
theorem valueAt_positionFrom (s : Series) (t : Stamp) :
    s.valueAt (positionFrom 0 s.index.stamps t) = s.at? t := by
  have hzero : positionFrom 0 s.index.stamps t = s.index.stamps.idxOf? t :=
    congrFun Option.map_id _
  rw [hzero]
  unfold valueAt index at?
  induction s.points with
  | nil => rfl
  | cons p rest ih =>
    rw [List.map_cons, List.idxOf?_cons, List.lookup_cons]
    by_cases htp : p.1 = t
    · rw [beq_iff_eq.2 htp, beq_iff_eq.2 htp.symm]
      rfl
    · rw [beq_eq_false_iff_ne.2 htp, beq_eq_false_iff_ne.2 (Ne.symm htp),
        if_neg Bool.false_ne_true, ← ih, Option.bind_map]
      rfl

theorem apply_missing_left (op : Arithmetic) (x : Float) : op.apply missing x = missing :=
  Double.eq_missing (Double.isNaN_apply_left op Double.isNaN_missing x)

theorem apply_missing_right (op : Arithmetic) (x : Float) : op.apply x missing = missing :=
  Double.eq_missing (Double.isNaN_apply_right op x Double.isNaN_missing)

/-- An operation on what two series have at a stamp, missing where one has nothing. -/
def applyBoth (op : Arithmetic) : Option Float → Option Float → Float
  | some x, some y => op.apply x y
  | _, _ => missing

/-- The point that arithmetic makes of what two series have at a stamp, if either has one. -/
def pointOfBoth (op : Arithmetic) (x y : Option Float) : Option Float :=
  if x = none ∧ y = none then none else some (applyBoth op x y)

/-- Without a point the result misses a value, as it does where one series has nothing. -/
theorem pointOfBoth_getD (op : Arithmetic) (x y : Option Float) :
    (pointOfBoth op x y).getD missing = op.apply (x.getD missing) (y.getD missing) := by
  cases x with
  | none =>
    rw [Option.getD_none, apply_missing_left]
    cases y <;> rfl
  | some x =>
    cases y with
    | none => exact (apply_missing_right op x).symm
    | some y => rfl

/-- **Arithmetic of two series**: it succeeds, and the result has at a stamp what the operation
makes of what the two have there. -/
theorem combine_ok (hs : s.IsSorted) (hr : r.IsSorted) (op : Arithmetic) :
    ∃ u, s.combine r op = .ok u ∧ u.IsSorted ∧ u.options = .unset ∧
      ∀ t, u.at? t = pointOfBoth op (s.at? t) (r.at? t) := by
  have hrows := merges_mergeRows 0 hs 0 hr
  generalize hrowsEq : mergeRows 0 s.index.stamps 0 r.index.stamps = rows at hrows
  let value (t : Stamp) : Float := applyBoth op (s.at? t) (r.at? t)
  have hvalues : ((rows.map Row.left).zip (rows.map Row.right)).map (fun sides =>
      applyBoth op (s.valueAt sides.1) (r.valueAt sides.2)) = (rows.map Row.stamp).map value := by
    rw [List.zip_map', List.map_map, List.map_map]
    refine List.map_congr_left fun row hrow => ?_
    change applyBoth op (s.valueAt row.left) (r.valueAt row.right) = value row.stamp
    rw [hrows.left row hrow, hrows.right row hrow, valueAt_positionFrom, valueAt_positionFrom]
  let u : Series := (Series.empty (combinedName op s.name r.name)).withPoints
    ((rows.map Row.stamp).map fun t => (t, value t))
  refine ⟨u, ?_, isSorted_map hrows.sorted value, rfl, fun t => ?_⟩
  · unfold combine
    dsimp only
    rw [validate_merge]
    unfold merge ofRows
    rw [hrowsEq]
    refine (congrArg (ofIndex? _ _) hvalues).trans ?_
    unfold ofIndex?
    rw [if_pos (by rw [TimeIndex.size, List.length_map, List.length_map, List.length_map])]
    change Except.ok (ofPoints _ ((rows.map Row.stamp).zip ((rows.map Row.stamp).map value))) = _
    rw [← List.map_prod_left_eq_zip]
    rfl
  · have hmem : t ∈ rows.map Row.stamp ↔ ¬ (s.at? t = none ∧ r.at? t = none) := by
      rw [hrows.mem, at?_eq_none_iff, at?_eq_none_iff, not_and_or, not_not, not_not]
    rw [at?_map, pointOfBoth, if_congr hmem rfl rfl, ite_not]

/-- **Arithmetic of two series** succeeds and has the stamps of both, with what the operation makes
of the values where both have one, and a missing value elsewhere. -/
theorem combine_exists (hs : s.IsSorted) (hr : r.IsSorted) (op : Arithmetic) :
    ∃ u, s.combine r op = .ok u ∧ u.IsSorted ∧
      (∀ t, t ∈ u.index.stamps ↔ t ∈ s.index.stamps ∨ t ∈ r.index.stamps) ∧
      ∀ t, u.valueOn t = applyBoth op (s.at? t) (r.at? t) := by
  obtain ⟨u, hu, hsorted, -, hpoint⟩ := combine_ok hs hr op
  refine ⟨u, hu, hsorted, fun t => ?_, fun t => ?_⟩
  · rw [← not_iff_not, not_or, ← at?_eq_none_iff, ← at?_eq_none_iff, ← at?_eq_none_iff, hpoint,
      pointOfBoth]
    split <;> simp_all
  · rw [valueOn, hpoint, pointOfBoth]
    cases s.at? t <;> cases r.at? t <;> rfl

/-- What the result of arithmetic says at a stamp. -/
theorem valueOn_of_pointOfBoth {u : Series} {op : Arithmetic}
    (h : u.at? t = pointOfBoth op (s.at? t) (r.at? t)) :
    u.valueOn t = op.apply (s.valueOn t) (r.valueOn t) := by
  rw [valueOn, h, pointOfBoth_getD, valueOn, valueOn]

end Series

end SeriesAlgebra
