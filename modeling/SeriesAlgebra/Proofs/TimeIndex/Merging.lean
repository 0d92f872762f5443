import Mathlib.Data.List.ReduceOption
import SeriesAlgebra.Proofs.Series.Layout

/-!
# Merging with two cursors

Two indexes can be merged with a cursor in each. In every round the earlier one of the stamps under
the cursors makes a row, or both make one if they are the same, and what made a row is passed
(`Alignment.Cursors.step`). A round keeps the rows that the merge makes in all, those made so far
and those of the stamps ahead (`Alignment.Cursors.allRows_step`), and leaves fewer stamps ahead. So
the cursors come to a stop with the rows of the merge, whether the indexes are in order or not
(`Alignment.Cursors.exists_stopsAfter`).

The plain way is to sort the stamps of both indexes and to look each of them up in either
(`Alignment.byLookup`). For indexes in order it gives the same alignment, and this has every
position of both just once and in order (`Alignment.merge_agrees_with_lookup`).
-/

namespace SeriesAlgebra

/-! ### Looking stamps up -/

namespace TimeIndex

variable {i j : TimeIndex} {t : Stamp}

/-- **A stamp is found where it stands**: it stands nowhere else in an index in order. -/
theorem IsSorted.position?_eq_some_iff (h : i.IsSorted) {p : Nat} :
    i.position? t = some p ↔ i.stamps[p]? = some t := by
  have hnodup : i.stamps.Nodup := h.imp OrderedMap.ne_of_lt
  unfold position?
  rw [List.idxOf?_eq_some_iff]
  constructor
  · rintro ⟨hp, ht, -⟩
    exact List.getElem?_eq_some_iff.2 ⟨hp, ht⟩
  · intro ht
    obtain ⟨hp, ht⟩ := List.getElem?_eq_some_iff.1 ht
    refine ⟨hp, ht, fun q hq hqt => ?_⟩
    exact absurd (hnodup.getElem_inj_iff.1 (hqt.trans ht.symm)) (Nat.ne_of_lt hq)

theorem position?_eq_none_iff : i.position? t = none ↔ t ∉ i.stamps := List.idxOf?_eq_none_iff

theorem isSome_position?_iff : (i.position? t).isSome = true ↔ t ∈ i.stamps := by
  rw [Option.isSome_iff_ne_none, ne_eq, position?_eq_none_iff, not_not]

/-- In itself an index has its positions in order. -/
theorem IsSorted.positionsIn_self (h : i.IsSorted) :
    i.positionsIn i = (List.range i.size).map some := by
  refine List.ext_getElem? fun p => ?_
  unfold positionsIn
  rw [List.getElem?_map, List.getElem?_map]
  by_cases hp : p < i.size
  · have ht : i.stamps[p]? = some i.stamps[p] := List.getElem?_eq_getElem hp
    rw [ht, List.getElem?_range hp, Option.map_some, Option.map_some,
      h.position?_eq_some_iff.2 ht]
  · rw [List.getElem?_eq_none (Nat.le_of_not_lt hp),
      List.getElem?_eq_none (by rw [List.length_range]; exact Nat.le_of_not_lt hp)]
    rfl

/-- **In an index that has all its stamps an index has its positions just once and in order.** -/
theorem IsSorted.reduceOption_positionsIn (hi : i.IsSorted) (hj : j.IsSorted)
    (hsub : ∀ t ∈ i.stamps, t ∈ j.stamps) :
    (i.positionsIn j).reduceOption = List.range i.size := by
  have hcommon : (⟨j.stamps.filter (· ∈ i.stamps)⟩ : TimeIndex) = i := by
    refine IsSorted.eq_of_mem_iff (hj.sublist List.filter_sublist) hi fun t => ?_
    rw [List.mem_filter, decide_eq_true_iff]
    exact and_iff_right_of_imp (hsub t)
  have hskip : (i.positionsIn j).reduceOption =
      (i.positionsIn ⟨j.stamps.filter (· ∈ i.stamps)⟩).reduceOption := by
    unfold positionsIn List.reduceOption
    rw [List.filterMap_map, List.filterMap_map, List.filterMap_filter]
    refine List.filterMap_congr fun t _ => ?_
    split
    · rfl
    · rename_i ht
      exact position?_eq_none_iff.2 fun hmem => ht (decide_eq_true hmem)
  rw [hskip, hcommon, hi.positionsIn_self, List.reduceOption, List.filterMap_map]
  exact List.filterMap_some

end TimeIndex

namespace Alignment

/-! ### One row of a merge -/

section

variable {i j : Nat} {a b : Stamp} {as bs : List Stamp}

theorem mergeRows_both : mergeRows i (a :: as) j (a :: bs) =
    ⟨a, some i, some j⟩ :: mergeRows (i + 1) as (j + 1) bs := by
  rw [mergeRows, mergeInto, if_pos rfl]

/-- The left stamp comes first if no right one comes before it. -/
theorem mergeRows_left (h : ∀ b, bs.head? = some b → a < b) : mergeRows i (a :: as) j bs =
    ⟨a, some i, none⟩ :: mergeRows (i + 1) as j bs := by
  cases bs with
  | nil => rfl
  | cons b bs =>
    have hlt := h b rfl
    rw [mergeRows, mergeInto, if_neg (OrderedMap.ne_of_lt hlt), if_pos hlt]

/-- The right stamp comes first if every left one comes after it. -/
theorem mergeRows_right (h : ∀ a, as.head? = some a → a ≠ b ∧ ¬ a < b) :
    mergeRows i as j (b :: bs) = ⟨b, none, some j⟩ :: mergeRows i as (j + 1) bs := by
  cases as with
  | nil => rfl
  | cons a as =>
    obtain ⟨hne, hnlt⟩ := h a rfl
    rw [mergeRows, mergeInto, if_neg hne, if_neg hnlt, mergeRows]

end

/-! ### Cursors -/

/-- Two cursors, and the rows made of the stamps that they have passed. -/
structure Cursors where
  left : Nat
  right : Nat
  rows : List Row

namespace Cursors

/-- Both cursors at the first stamp. -/
def start : Cursors := ⟨0, 0, []⟩

/-- The left stamp makes a row. -/
def takeLeft (c : Cursors) (a : Stamp) : Cursors :=
  ⟨c.left + 1, c.right, c.rows ++ [⟨a, some c.left, none⟩]⟩

/-- The right stamp makes a row. -/
def takeRight (c : Cursors) (b : Stamp) : Cursors :=
  ⟨c.left, c.right + 1, c.rows ++ [⟨b, none, some c.right⟩]⟩

/-- A stamp of both makes a row. -/
def takeBoth (c : Cursors) (a : Stamp) : Cursors :=
  ⟨c.left + 1, c.right + 1, c.rows ++ [⟨a, some c.left, some c.right⟩]⟩

variable (left right : TimeIndex)

/-- **One round of a merge**, unless both cursors are past the end. -/
def step (c : Cursors) : Option Cursors :=
  match left.stamps[c.left]?, right.stamps[c.right]? with
  | some a, some b =>
    if a = b then some (c.takeBoth a)
    else if a < b then some (c.takeLeft a)
    else some (c.takeRight b)
  | some a, none => some (c.takeLeft a)
  | none, some b => some (c.takeRight b)
  | none, none => none

/-- **Whether cursors come to a stop** after a number of rounds. -/
inductive StopsAfter : Nat → Cursors → Cursors → Prop
  | stop {c : Cursors} (h : c.step left right = none) : StopsAfter 0 c c
  | round {rounds : Nat} {c d last : Cursors} (h : c.step left right = some d)
      (rest : StopsAfter rounds d last) : StopsAfter (rounds + 1) c last

/-- The rows made so far and those that the stamps ahead make. -/
def allRows (c : Cursors) : List Row :=
  c.rows ++ mergeRows c.left (left.stamps.drop c.left) c.right (right.stamps.drop c.right)

/-- How many stamps are ahead of the cursors. -/
def ahead (c : Cursors) : Nat := (left.size - c.left) + (right.size - c.right)

variable {left right} {c d : Cursors}

/-- **What a round does**: it takes a stamp of both, or the earlier one of two, or the only one. -/
theorem step_cases (h : c.step left right = some d) :
    (∃ a, left.stamps[c.left]? = some a ∧ right.stamps[c.right]? = some a ∧ d = c.takeBoth a) ∨
    (∃ a, left.stamps[c.left]? = some a ∧ (∀ b, right.stamps[c.right]? = some b → a < b) ∧
      d = c.takeLeft a) ∨
    ∃ b, right.stamps[c.right]? = some b ∧
      (∀ a, left.stamps[c.left]? = some a → a ≠ b ∧ ¬ a < b) ∧ d = c.takeRight b := by
  unfold step at h
  cases hleft : left.stamps[c.left]? with
  | none =>
    cases hright : right.stamps[c.right]? with
    | none => simp [hleft, hright] at h
    | some b =>
      simp only [hleft, hright, Option.some.injEq] at h
      exact Or.inr (Or.inr ⟨b, rfl, nofun, h.symm⟩)
  | some a =>
    cases hright : right.stamps[c.right]? with
    | none =>
      simp only [hleft, hright, Option.some.injEq] at h
      exact Or.inr (Or.inl ⟨a, rfl, nofun, h.symm⟩)
    | some b =>
      simp only [hleft, hright] at h
      split at h
      · rename_i hab
        exact Or.inl ⟨a, rfl, hab ▸ rfl, (Option.some.inj h).symm⟩
      · rename_i hne
        split at h
        · rename_i hlt
          exact Or.inr (Or.inl ⟨a, rfl, fun _ hb => Option.some.inj hb ▸ hlt,
            (Option.some.inj h).symm⟩)
        · rename_i hnlt
          exact Or.inr (Or.inr ⟨b, rfl, fun _ ha => Option.some.inj ha ▸ ⟨hne, hnlt⟩,
            (Option.some.inj h).symm⟩)

theorem step_eq_none_iff :
    c.step left right = none ↔ left.size ≤ c.left ∧ right.size ≤ c.right := by
  have hend (index : TimeIndex) (p : Nat) : index.stamps[p]? = none ↔ index.size ≤ p :=
    List.getElem?_eq_none_iff
  rw [← hend, ← hend]
  unfold step
  constructor
  · intro h
    split at h
    · split_ifs at h
    · cases h
    · cases h
    · exact ⟨by assumption, by assumption⟩
  · rintro ⟨hleft, hright⟩
    rw [hleft, hright]

/-! ### Rounds -/

/-- The stamps from a position on. -/
theorem drop_eq_cons {index : TimeIndex} {p : Nat} {t : Stamp} (h : index.stamps[p]? = some t) :
    index.stamps.drop p = t :: index.stamps.drop (p + 1) := by
  obtain ⟨hp, rfl⟩ := List.getElem?_eq_some_iff.1 h
  exact List.drop_eq_getElem_cons hp

/-- **A round keeps all rows.** -/
theorem allRows_step (h : c.step left right = some d) :
    d.allRows left right = c.allRows left right := by
  have hmade (row : Row) (rest : List Row) : (c.rows ++ [row]) ++ rest = c.rows ++ row :: rest :=
    (List.append_cons c.rows row rest).symm
  unfold allRows
  rcases step_cases h with ⟨a, hleft, hright, rfl⟩ | ⟨a, hleft, hfirst, rfl⟩ |
    ⟨b, hright, hfirst, rfl⟩
  · rw [drop_eq_cons hleft, drop_eq_cons hright, mergeRows_both]
    exact hmade _ _
  · rw [drop_eq_cons hleft, mergeRows_left fun b hb => hfirst b (List.head?_drop.symm.trans hb)]
    exact hmade _ _
  · rw [drop_eq_cons hright, mergeRows_right fun a ha => hfirst a (List.head?_drop.symm.trans ha)]
    exact hmade _ _

/-- **A round leaves fewer stamps ahead.** -/
theorem ahead_step (h : c.step left right = some d) : d.ahead left right < c.ahead left right := by
  have hbound {index : TimeIndex} {p : Nat} {t : Stamp} (ht : index.stamps[p]? = some t) :
      p < index.size := (List.getElem?_eq_some_iff.1 ht).1
  unfold ahead
  rcases step_cases h with ⟨a, hleft, hright, rfl⟩ | ⟨a, hleft, -, rfl⟩ | ⟨b, hright, -, rfl⟩
  · have hl := hbound hleft
    have hr := hbound hright
    simp only [takeBoth]
    omega
  · have hl := hbound hleft
    simp only [takeLeft]
    omega
  · have hr := hbound hright
    simp only [takeRight]
    omega

/-- Nothing is left to be made once the cursors stop. -/
theorem allRows_of_stop (h : c.step left right = none) : c.allRows left right = c.rows := by
  obtain ⟨hleft, hright⟩ := step_eq_none_iff.1 h
  unfold allRows
  rw [List.drop_eq_nil_of_le hleft, List.drop_eq_nil_of_le hright]
  exact List.append_nil c.rows

/-- **The cursors come to a stop**, after no more rounds than there are stamps ahead, and with all
rows. -/
theorem exists_stopsAfter (left right : TimeIndex) (c : Cursors) :
    ∃ rounds ≤ c.ahead left right, ∃ last, StopsAfter left right rounds c last ∧
      last.rows = c.allRows left right := by
  induction hahead : c.ahead left right using Nat.strong_induction_on generalizing c with
  | h ahead ih =>
    subst hahead
    cases hstep : c.step left right with
    | none => exact ⟨0, Nat.zero_le _, c, .stop hstep, (allRows_of_stop hstep).symm⟩
    | some d =>
      have hfewer := ahead_step hstep
      obtain ⟨rounds, hrounds, last, hstops, hrows⟩ := ih _ hfewer d rfl
      exact ⟨rounds + 1, Nat.lt_of_le_of_lt hrounds hfewer, last, .round hstep hstops,
        hrows.trans (allRows_step hstep)⟩

end Cursors

/-! ### Sorting and looking up -/

/-- The alignment of two indexes that sorts all their stamps and looks each of them up in both. -/
def byLookup (left right : TimeIndex) : Alignment where
  union := .unionAll [left, right]
  left := left.positionsIn (.unionAll [left, right])
  right := right.positionsIn (.unionAll [left, right])

/-- **Whether an alignment of two indexes is complete**: its stamps are in order, it has every
position of both just once and in order, and at every stamp a position of one of them. -/
structure IsComplete (left right : TimeIndex) (a : Alignment) : Prop where
  sorted : a.union.IsSorted
  left : a.left.reduceOption = List.range left.size
  right : a.right.reduceOption = List.range right.size
  covered : ∀ sides ∈ a.left.zip a.right, sides.1.isSome = true ∨ sides.2.isSome = true
  valid : a.validate = .ok ()

section

variable {left right : TimeIndex}

theorem mem_unionAll_pair {t : Stamp} :
    t ∈ (TimeIndex.unionAll [left, right]).stamps ↔ t ∈ left.stamps ∨ t ∈ right.stamps := by
  rw [TimeIndex.mem_unionAll]
  simp

theorem isComplete_byLookup (hleft : left.IsSorted) (hright : right.IsSorted) :
    IsComplete left right (byLookup left right) := by
  have hsorted : (TimeIndex.unionAll [left, right]).IsSorted := TimeIndex.isSorted_ofUnsorted _
  refine ⟨hsorted, ?_, ?_, fun sides hsides => ?_, ?_⟩
  · exact hleft.reduceOption_positionsIn hsorted fun t ht => mem_unionAll_pair.2 (Or.inl ht)
  · exact hright.reduceOption_positionsIn hsorted fun t ht => mem_unionAll_pair.2 (Or.inr ht)
  · unfold byLookup TimeIndex.positionsIn at hsides
    rw [List.zip_map', List.mem_map] at hsides
    obtain ⟨t, ht, rfl⟩ := hsides
    rw [TimeIndex.isSome_position?_iff, TimeIndex.isSome_position?_iff]
    exact mem_unionAll_pair.1 ht
  · simp [validate, byLookup, TimeIndex.positionsIn, TimeIndex.size]

theorem merge_eq_byLookup (hleft : left.IsSorted) (hright : right.IsSorted) :
    merge left right = byLookup left right := by
  have hunion : (merge left right).union = .unionAll [left, right] :=
    (isSorted_merge hleft hright).eq_of_mem_iff (TimeIndex.isSorted_ofUnsorted _) fun t =>
      (mem_merge hleft hright t).trans mem_unionAll_pair.symm
  obtain ⟨hpositionsLeft, hpositionsRight⟩ := positions_merge hleft hright
  rw [hunion] at hpositionsLeft hpositionsRight
  change Alignment.mk (merge left right).union (merge left right).left (merge left right).right = _
  rw [hunion, hpositionsLeft, hpositionsRight]
  rfl

/-- **Merging two indexes in order agrees with sorting and looking up.** Two cursors come to a stop
after no more rounds than both indexes have stamps, and their rows are the alignment. It has the
stamps of both sorted, and beside each the position where it is found in either index. So every
position of both is there just once and in order, and no stamp is without a position. -/
theorem merge_agrees_with_lookup (hleft : left.IsSorted) (hright : right.IsSorted) :
    (∃ rounds ≤ left.size + right.size, ∃ last, Cursors.StopsAfter left right rounds .start last ∧
      ofRows last.rows = merge left right) ∧
    (merge left right).union = .unionAll [left, right] ∧
    (merge left right).left = left.positionsIn (merge left right).union ∧
    (merge left right).right = right.positionsIn (merge left right).union ∧
    IsComplete left right (merge left right) := by
  obtain ⟨rounds, hrounds, last, hstops, hrows⟩ := Cursors.exists_stopsAfter left right .start
  refine ⟨⟨rounds, hrounds, last, hstops, congrArg ofRows hrows⟩, ?_⟩
  rw [merge_eq_byLookup hleft hright]
  exact ⟨rfl, rfl, rfl, isComplete_byLookup hleft hright⟩

/-- Two indexes that share a stamp in the middle and the last one. -/
theorem merge_agrees_with_lookup_sharedEnd :
    let left : TimeIndex := ⟨[.within 0 0, .within 1 0, .within 3 0]⟩
    let right : TimeIndex := ⟨[.within 1 0, .within 2 0, .within 3 0]⟩
    left.IsSorted ∧ right.IsSorted ∧
      (merge left right).union = ⟨[.within 0 0, .within 1 0, .within 2 0, .within 3 0]⟩ ∧
      (merge left right).left = [some 0, some 1, none, some 2] ∧
      (merge left right).right = [none, some 0, some 1, some 2] ∧
      (merge left right).left.reduceOption = [0, 1, 2] := by
  intro left right
  have hleft : left.IsSorted := by unfold TimeIndex.IsSorted; decide +kernel
  have hright : right.IsSorted := by unfold TimeIndex.IsSorted; decide +kernel
  obtain ⟨-, hunion, hpositionsLeft, hpositionsRight, hcomplete⟩ :=
    merge_agrees_with_lookup hleft hright
  have hsorted : TimeIndex.unionAll [left, right] =
      ⟨[.within 0 0, .within 1 0, .within 2 0, .within 3 0]⟩ := by decide +kernel
  rw [hsorted] at hunion
  rw [hunion] at hpositionsLeft hpositionsRight
  refine ⟨hleft, hright, hunion, hpositionsLeft.trans ?_, hpositionsRight.trans ?_, hcomplete.left⟩
  · decide +kernel
  · decide +kernel

end

end Alignment

end SeriesAlgebra
