import SeriesAlgebra.Proofs.Double.Order
import SeriesAlgebra.Proofs.Series.Rows

/-!
# Rows of filled series

An input of a combination counts at a stamp as what it says once it stands on the union of
all indexes and its gaps there are filled as it asks (`Reduction.filledOn`). With that, each
reduction is told by what its inputs say at a stamp: a sum has a point where all of them say
something (`Reduction.sum_outerJoin`), and the least and the greatest value and the mean have
one where some do (`Reduction.reductions_skip_missing`).
-/

namespace SeriesAlgebra

namespace Reduction

open SeriesAlgebra.Frame Series

variable {inputs : List Series} {s u : Series} {t : Stamp}

/-- **What an input says at a stamp** on the union of the indexes of all inputs, filled as it asks. -/
def filledOn (inputs : List Series) (t : Stamp) (s : Series) : Float :=
  (extended true (unionOf inputs) s).valueOn t

/-- Whether an input says something there. -/
def isPresentOn (inputs : List Series) (t : Stamp) (s : Series) : Bool := !(filledOn inputs t s).isNaN

theorem isPresentOn_iff : isPresentOn inputs t s = true ↔ (filledOn inputs t s).isNaN = false := by
  rw [isPresentOn, Bool.not_eq_true']

theorem rowAt_columnsOf (inputs : List Series) (t : Stamp) :
    rowAt (columnsOf true inputs) t = inputs.map (filledOn inputs t) := by
  rw [rowAt, columnsOf, List.map_map]
  rfl

/-- Without a policy an input says what it says by itself. -/
theorem filledOn_of_unfilled (hs : s ∈ inputs) (h : s.options.fill = none) :
    filledOn inputs t s = s.valueOn t := congrFun (valueOn_extended hs fun _ => h) t

/-- What says something does so at a stamp of the union. -/
theorem mem_unionOf_of_present (h : (filledOn inputs t s).isNaN = false) :
    t ∈ (unionOf inputs).stamps := by
  by_contra hnone
  have hnot : t ∉ (extended true (unionOf inputs) s).index.stamps := by rwa [stamps_extended]
  rw [filledOn, valueOn_of_not_mem hnot, Double.isNaN_missing] at h
  cases h

/-- A reduction of filled inputs that leaves out missing values. -/
theorem filled_ok (operation : String) (value : List Float → Float)
    (hmissing : ∀ row, (∀ x ∈ row, x = missing) → value row = missing) (hne : inputs ≠ [])
    (name : String) :
    ∃ u, (ofInputs operation inputs fun _ => do
        return ((← aligned inputs true).reduceRows name value).dropMissing) = .ok u ∧
      u.IsSorted ∧ (∀ p ∈ u.points, p.2.isNaN = false) ∧
      ∀ t, u.at? t = ifPresent (value (inputs.map (filledOn inputs t))) := by
  obtain ⟨u, hu, hsorted, -, hpoint⟩ := reduced_ok operation true id hmissing hne name
  rw [List.map_id] at hu hpoint
  refine ⟨u, hu, hsorted, fun p hp => ?_, fun t => rowAt_columnsOf inputs t ▸ hpoint t⟩
  have hp := (at?_eq_some_iff hsorted).2 hp
  rw [hpoint, ifPresent_eq_some_iff] at hp
  exact hp.2

/-! ### Sums -/

/-- The sum of numbers, added up from the first on. -/
def sumInOrder : List Float → Float
  | [] => 0.0
  | x :: rest => rest.foldl (· + ·) x

theorem rowSum_eq {row : List Float} (h : row ≠ []) : rowSum row = sumInOrder row := by
  cases row with
  | nil => exact absurd rfl h
  | cons x rest =>
    -- Where the sum starts is nothing to the first number.
    rw [rowSum, List.foldl_cons, Double.negZero_add]
    rfl

theorem isComplete_iff : isComplete (inputs.map (filledOn inputs t)) = true ↔
    ∀ s ∈ inputs, (filledOn inputs t s).isNaN = false := by
  rw [isComplete, List.all_map, List.all_eq_true]
  exact forall₂_congr fun _ _ => isPresentOn_iff

/-- **A sum is an outer join.** Of at least one series it always exists, and it has a point at a stamp
of their union just if every input, extended to the union and filled as it asks, says something
there; its value is the sum of what they say, in their order. Where no input asks to be filled,
these are the stamps at which every input says something by itself. -/
theorem sum_outerJoin (name : String) {inputs : List Series} (hne : inputs ≠ []) :
    ∃ u, sum name inputs = .ok u ∧ u.IsSorted ∧
      (∀ t, t ∈ u.index.stamps ↔ t ∈ (unionOf inputs).stamps ∧
        ∀ s ∈ inputs, (filledOn inputs t s).isNaN = false) ∧
      (∀ t ∈ u.index.stamps, u.at? t = some (sumInOrder (inputs.map (filledOn inputs t)))) ∧
      ((∀ s ∈ inputs, s.options.fill = none) →
        ∀ t, t ∈ u.index.stamps ↔ ∀ s ∈ inputs, (s.valueOn t).isNaN = false) := by
  obtain ⟨u, hu, hsorted, -, hpoint⟩ := sum_ok hne name
  have hvalue (t : Stamp) : u.at? t = if isComplete (inputs.map (filledOn inputs t)) then
      some (sumInOrder (inputs.map (filledOn inputs t))) else none := by
    rw [hpoint, rowAt_columnsOf, rowSum_eq fun hnil => hne (List.map_eq_nil_iff.1 hnil)]
  have hmem (t : Stamp) : t ∈ u.index.stamps ↔
      ∀ s ∈ inputs, (filledOn inputs t s).isNaN = false := by
    rw [← isComplete_iff, mem_stamps_iff, hvalue]
    split <;> simp_all
  obtain ⟨first, hfirst⟩ := List.exists_mem_of_ne_nil inputs hne
  refine ⟨u, hu, hsorted, fun t => ?_, fun t ht => ?_, fun hunfilled t => ?_⟩
  · exact (hmem t).trans
      (and_iff_right_of_imp fun h => mem_unionOf_of_present (h first hfirst)).symm
  · rw [hvalue, if_pos (isComplete_iff.2 ((hmem t).1 ht))]
  · refine (hmem t).trans (forall₂_congr fun s hs => ?_)
    rw [filledOn_of_unfilled hs (hunfilled s hs)]

/-- The midnight so many days after the first of January 2024. -/
def midnight (n : Nat) : Stamp := .within (1704067200 + 86400 * n) 0

/-- A series with a gap, which is carried forward, and three times the usual weight. -/
def carried : Series :=
  ⟨"a", [(midnight 0, 1.0), (midnight 1, missing), (midnight 3, 4.0)],
    ⟨some ⟨[.forward]⟩, none, some 3.0⟩⟩

/-- A series of the same name with a gap that stays. -/
def gapped : Series :=
  .ofPoints "a" [(midnight 1, 10.0), (midnight 2, 20.0), (midnight 4, missing)]

theorem sum_outerJoin_carried :
    (∃ u, sum "sum" [carried, gapped] = .ok u ∧ u.at? (midnight 2) = some 21.0 ∧
        midnight 0 ∉ u.index.stamps) ∧
      ∃ u, sum "twice" [gapped, gapped] = .ok u ∧ midnight 1 ∈ u.index.stamps ∧
        midnight 4 ∉ u.index.stamps := by
  constructor
  · obtain ⟨u, hu, -, hmem, hvalue, -⟩ := sum_outerJoin "sum" (List.cons_ne_nil carried [gapped])
    refine ⟨u, hu, ?_, fun h => ?_⟩
    · have hpoint : midnight 2 ∈ u.index.stamps :=
        (hmem _).2 ⟨by decide +kernel, by decide +kernel⟩
      have hsum : sumInOrder ([carried, gapped].map (filledOn [carried, gapped] (midnight 2))) = 21.0 := by
        decide +kernel
      rw [hvalue _ hpoint, hsum]
    · exact absurd ((hmem _).1 h).2 (by decide +kernel)
  · obtain ⟨u, hu, -, -, -, hmem⟩ := sum_outerJoin "twice" (List.cons_ne_nil gapped [gapped])
    have hmem := hmem (by simp [gapped, ofPoints, SeriesOptions.unset])
    exact ⟨u, hu, (hmem _).2 (by decide +kernel),
      fun h => absurd ((hmem _).1 h) (by decide +kernel)⟩

/-! ### Least and greatest values -/

/-- **Whether numbers are compared by a relation**: nothing comes after the missing value, and of
numbers none comes before one that comes before it, or passes one that it does not come before. -/
structure ComparesNumbers (before : Float → Float → Prop) : Prop where
  missing : ∀ y, ¬ before SeriesAlgebra.missing y
  asymm : ∀ x y, x.isNaN = false → y.isNaN = false → before x y → ¬ before y x
  trans : ∀ x y z, x.isNaN = false → y.isNaN = false → z.isNaN = false →
    ¬ before x y → ¬ before y z → ¬ before x z

theorem comparesNumbers_lt : ComparesNumbers (· < ·) where
  missing := Double.not_missing_lt
  asymm _ _ hx hy := Double.not_lt_of_lt hx hy
  trans _ _ _ hx hy hz := Double.not_lt_trans hx hy hz

theorem comparesNumbers_gt : ComparesNumbers (fun x y => y < x) where
  missing := Double.not_lt_missing
  asymm _ _ hx hy := Double.not_lt_of_lt hy hx
  trans _ _ _ hx hy hz hxy hyz := Double.not_lt_trans hz hy hx hyz hxy

section Extremes

variable {before : Float → Float → Prop} [DecidableRel before]

/-- The one of two values that comes before the other, the second of two in one place, and the other
one if one is missing. -/
def earlier (before : Float → Float → Prop) [DecidableRel before] (x y : Float) : Float :=
  if y.isNaN || before x y then x else y

/-- Of numbers that are compared one after the other, one is left, and none comes before it. -/
theorem foldl_earlier (hbefore : ComparesNumbers before) {first : Float} {rest : List Float}
    (h : ∀ x ∈ first :: rest, x.isNaN = false) :
    rest.foldl (earlier before) first ∈ first :: rest ∧
      ∀ x ∈ first :: rest, ¬ before x (rest.foldl (earlier before) first) := by
  induction rest generalizing first with
  | nil =>
    have hirrefl : ¬ before first first := fun hlt =>
      hbefore.asymm _ _ (h _ List.mem_cons_self) (h _ List.mem_cons_self) hlt hlt
    exact ⟨List.mem_cons_self, fun x hx => by rwa [List.mem_singleton.1 hx]⟩
  | cons y rest ih =>
    obtain ⟨hfirst, hothers⟩ := List.forall_mem_cons.1 h
    obtain ⟨hy, hrest⟩ := List.forall_mem_cons.1 hothers
    rw [List.foldl_cons]
    by_cases hlt : before first y
    · -- What is dropped does not come before what is kept, so not before what is left of all.
      have hkept : earlier before first y = first := by
        rw [earlier, if_pos (by rw [hy, Bool.false_or, decide_eq_true hlt])]
      have hnumbers : ∀ x ∈ first :: rest, x.isNaN = false :=
        List.forall_mem_cons.2 ⟨hfirst, hrest⟩
      obtain ⟨hmem, hleast⟩ := ih hnumbers
      obtain ⟨hself, hleft⟩ := List.forall_mem_cons.1 hleast
      rw [hkept]
      refine ⟨List.mem_cons.2 ((List.mem_cons.1 hmem).imp_right (List.mem_cons_of_mem _)), ?_⟩
      exact List.forall_mem_cons.2 ⟨hself, List.forall_mem_cons.2
        ⟨hbefore.trans _ _ _ hy hfirst (hnumbers _ hmem) (hbefore.asymm _ _ hfirst hy hlt) hself,
          hleft⟩⟩
    · have hnext : earlier before first y = y := by
        rw [earlier, if_neg (by rw [hy, Bool.false_or, decide_eq_false hlt]; exact Bool.false_ne_true)]
      have hnumbers : ∀ x ∈ y :: rest, x.isNaN = false := List.forall_mem_cons.2 ⟨hy, hrest⟩
      obtain ⟨hmem, hleast⟩ := ih hnumbers
      rw [hnext]
      exact ⟨List.mem_cons_of_mem _ hmem, List.forall_mem_cons.2
        ⟨hbefore.trans _ _ _ hfirst hy (hnumbers _ hmem) hlt (hleast y List.mem_cons_self), hleast⟩⟩

/-- What is picked out of the numbers of a row, if there are any. -/
theorem foldl_earlier_present (hbefore : ComparesNumbers before) {row : List Float}
    (hne : present row ≠ []) :
    (present row).foldl (earlier before) missing ∈ present row ∧
      ∀ x ∈ present row, ¬ before x ((present row).foldl (earlier before) missing) := by
  have hnumbers : ∀ x ∈ present row, x.isNaN = false := fun x hx => by
    simpa using (List.mem_filter.1 hx).2
  cases hrow : present row with
  | nil => exact absurd hrow hne
  | cons first rest =>
    rw [hrow] at hnumbers
    have hfirst : earlier before missing first = first := by
      rw [earlier, if_neg]
      rw [hnumbers first List.mem_cons_self, Bool.false_or, decide_eq_false (hbefore.missing first)]
      exact Bool.false_ne_true
    rw [List.foldl_cons, hfirst]
    exact foldl_earlier hbefore hnumbers

/-- **Whether a series picks the extreme values** of inputs: it has a point wherever one of them says
something, with one of the values that they say there, and none of these comes before it. -/
structure PicksFirst (before : Float → Float → Prop) (inputs : List Series) (u : Series) : Prop where
  mem : ∀ t, t ∈ u.index.stamps ↔ ∃ s ∈ inputs, (filledOn inputs t s).isNaN = false
  value : ∀ t x, u.at? t = some x →
    (∃ s ∈ inputs, filledOn inputs t s = x ∧ (filledOn inputs t s).isNaN = false) ∧
      ∀ s ∈ inputs, (filledOn inputs t s).isNaN = false → ¬ before (filledOn inputs t s) x

theorem mem_present_iff {x : Float} : x ∈ present (inputs.map (filledOn inputs t)) ↔
    ∃ s ∈ inputs, filledOn inputs t s = x ∧ (filledOn inputs t s).isNaN = false := by
  rw [present, List.mem_filter, List.mem_map]
  constructor
  · rintro ⟨⟨s, hs, rfl⟩, hx⟩
    exact ⟨s, hs, rfl, by simpa using hx⟩
  · rintro ⟨s, hs, rfl, hx⟩
    exact ⟨⟨s, hs, rfl⟩, by simpa using hx⟩

/-- A series whose points are what is picked out of the rows. -/
theorem picksFirst_of_points (hbefore : ComparesNumbers before)
    (h : ∀ t, u.at? t = ifPresent ((present (inputs.map (filledOn inputs t))).foldl
      (earlier before) missing)) : PicksFirst before inputs u := by
  have hvalue (t : Stamp) (x : Float) : u.at? t = some x ↔
      present (inputs.map (filledOn inputs t)) ≠ [] ∧
        (present (inputs.map (filledOn inputs t))).foldl (earlier before) missing = x := by
    rw [h, ifPresent_eq_some_iff]
    constructor
    · rintro ⟨rfl, hx⟩
      refine ⟨fun hnil => ?_, rfl⟩
      rw [hnil, List.foldl_nil, Double.isNaN_missing] at hx
      cases hx
    · rintro ⟨hne, rfl⟩
      obtain ⟨s, -, hs, hnumber⟩ := mem_present_iff.1 (foldl_earlier_present hbefore hne).1
      exact ⟨rfl, hs ▸ hnumber⟩
  refine ⟨fun t => ?_, fun t x hx => ?_⟩
  · simp only [mem_stamps_iff, hvalue, exists_and_left, exists_eq', and_true]
    constructor
    · intro hne
      obtain ⟨x, hx⟩ := List.exists_mem_of_ne_nil _ hne
      obtain ⟨s, hs, -, hnumber⟩ := mem_present_iff.1 hx
      exact ⟨s, hs, hnumber⟩
    · rintro ⟨s, hs, hnumber⟩
      exact List.ne_nil_of_mem (mem_present_iff.2 ⟨s, hs, rfl, hnumber⟩)
  · obtain ⟨hne, rfl⟩ := (hvalue t x).1 hx
    obtain ⟨hmem, hfirst⟩ := foldl_earlier_present hbefore hne
    exact ⟨mem_present_iff.1 hmem, fun s hs hnumber =>
      hfirst _ (mem_present_iff.2 ⟨s, hs, rfl, hnumber⟩)⟩

end Extremes

/-! ### Means -/

/-- Numbers added up one after another, from zero. -/
def addedUp (xs : List Float) : Float := xs.foldl (· + ·) 0.0

/-- Two numbers that are added up side by side. -/
theorem foldl_sums {α : Type} (f g : α → Float) (items : List α) (x y : Float) :
    items.foldl (fun (sums : Float × Float) a => (sums.1 + f a, sums.2 + g a)) (x, y) =
      ((items.map f).foldl (· + ·) x, (items.map g).foldl (· + ·) y) := by
  induction items generalizing x y with
  | nil => rfl
  | cons a rest ih => rw [List.foldl_cons, ih, List.map_cons, List.map_cons, List.foldl_cons,
      List.foldl_cons]

/-- What the inputs that say something at a stamp weigh together. -/
def totalWeight (inputs : List Series) (t : Stamp) : Float :=
  addedUp ((inputs.filter (isPresentOn inputs t)).map weightOf)

/-- The sum of what inputs say at a stamp, each times its weight. -/
def weightedSum (inputs : List Series) (t : Stamp) : Float :=
  addedUp ((inputs.filter (isPresentOn inputs t)).map fun s => filledOn inputs t s * weightOf s)

/-- Where no input says anything, nothing is weighed. -/
theorem exists_present_of_totalWeight (h : (totalWeight inputs t == 0.0) = false) :
    ∃ s ∈ inputs, (filledOn inputs t s).isNaN = false := by
  by_contra hnone
  have hnil : inputs.filter (isPresentOn inputs t) = [] := List.filter_eq_nil_iff.2 fun s hs hpresent =>
    hnone ⟨s, hs, isPresentOn_iff.1 hpresent⟩
  have hzero : (addedUp [] == 0.0) = true := by decide +kernel
  rw [totalWeight, hnil, List.map_nil, hzero] at h
  cases h

theorem rowMean_eq (inputs : List Series) (t : Stamp) :
    rowMean (inputs.map weightOf) (inputs.map (filledOn inputs t)) =
      if totalWeight inputs t == 0.0 then missing
      else weightedSum inputs t / totalWeight inputs t := by
  unfold rowMean
  rw [List.zip_map', List.filter_map, List.foldl_map]
  have hsums := foldl_sums (fun s => filledOn inputs t s * weightOf s) weightOf
    (inputs.filter (isPresentOn inputs t)) 0.0 0.0
  change (fun sums : Float × Float => if sums.2 == 0.0 then missing else sums.1 / sums.2)
    ((inputs.filter (isPresentOn inputs t)).foldl (fun (sums : Float × Float) s =>
      (sums.1 + filledOn inputs t s * weightOf s, sums.2 + weightOf s)) (0.0, 0.0)) = _
  rw [hsums]
  rfl

/-- **Reductions skip missing values.** Of at least one series, each extended to the union of the
indexes and filled as it asks, the least value, the greatest value and the mean always exist and
are never missing. The first two have a point just where some input says something, whose value is
one of those that are said and has none of them below it or above it; the mean has one just where
some input says something, what these inputs weigh together is not zero and the quotient is a
number, and its value is the quotient of the weighted sum by that weight. -/
theorem reductions_skip_missing (name : String) {inputs : List Series} (hne : inputs ≠ []) :
    (∃ u, least name inputs = .ok u ∧ u.IsSorted ∧ (∀ p ∈ u.points, p.2.isNaN = false) ∧
        PicksFirst (· < ·) inputs u) ∧
      (∃ u, greatest name inputs = .ok u ∧ u.IsSorted ∧ (∀ p ∈ u.points, p.2.isNaN = false) ∧
        PicksFirst (fun x y => y < x) inputs u) ∧
      ∃ u, mean name inputs = .ok u ∧ u.IsSorted ∧ (∀ p ∈ u.points, p.2.isNaN = false) ∧
        ∀ t x, u.at? t = some x ↔
          (∃ s ∈ inputs, (filledOn inputs t s).isNaN = false) ∧
            (totalWeight inputs t == 0.0) = false ∧
            (weightedSum inputs t / totalWeight inputs t).isNaN = false ∧
            x = weightedSum inputs t / totalWeight inputs t := by
  refine ⟨?_, ?_, ?_⟩
  · obtain ⟨u, hu, hsorted, hpresent, hpoint⟩ := filled_ok "min"
      (fun row => (present row).foldl (earlier (· < ·)) missing)
      (fun row h => by rw [present_eq_nil h, List.foldl_nil]) hne name
    exact ⟨u, hu, hsorted, hpresent, picksFirst_of_points comparesNumbers_lt hpoint⟩
  · obtain ⟨u, hu, hsorted, hpresent, hpoint⟩ := filled_ok "max"
      (fun row => (present row).foldl (earlier fun x y => y < x) missing)
      (fun row h => by rw [present_eq_nil h, List.foldl_nil]) hne name
    exact ⟨u, hu, hsorted, hpresent, picksFirst_of_points comparesNumbers_gt hpoint⟩
  · obtain ⟨u, hu, hsorted, hpresent, hpoint⟩ := filled_ok "row-mean"
      (rowMean (inputs.map weightOf)) (fun _ => rowMean_missing (inputs.map weightOf)) hne name
    refine ⟨u, hu, hsorted, hpresent, fun t x => ?_⟩
    rw [hpoint, rowMean_eq, ifPresent_eq_some_iff]
    cases htotal : totalWeight inputs t == 0.0 with
    | true =>
      -- The mean is missing then, so there is no point.
      refine iff_of_false ?_ fun h => Bool.noConfusion h.2.1
      rintro ⟨rfl, hx⟩
      rw [if_pos rfl, Double.isNaN_missing] at hx
      cases hx
    | false =>
      have hsome : ∃ s ∈ inputs, (filledOn inputs t s).isNaN = false :=
        exists_present_of_totalWeight htotal
      rw [if_neg Bool.false_ne_true]
      constructor
      · rintro ⟨rfl, hx⟩
        exact ⟨hsome, rfl, hx, rfl⟩
      · rintro ⟨-, -, hx, rfl⟩
        exact ⟨rfl, hx⟩

theorem reductions_skip_missing_carried :
    (∃ u, least "out" [carried, gapped] = .ok u ∧ u.at? (midnight 2) = some 1.0) ∧
      (∃ u, greatest "out" [carried, gapped] = .ok u ∧ midnight 0 ∈ u.index.stamps) ∧
      ∃ u, mean "out" [carried, gapped] = .ok u ∧ u.at? (midnight 2) = some 5.75 := by
  obtain ⟨⟨u, hu, -, -, hleast⟩, ⟨v, hv, -, -, hgreatest⟩, w, hw, -, -, hmean⟩ :=
    reductions_skip_missing "out" (List.cons_ne_nil carried [gapped])
  refine ⟨⟨u, hu, ?_⟩, ⟨v, hv, (hgreatest.mem _).2 (by decide +kernel)⟩, w, hw,
    (hmean _ _).2 (by decide +kernel)⟩
  have hcarried : filledOn [carried, gapped] (midnight 2) carried = 1.0 := by decide +kernel
  have hgapped : filledOn [carried, gapped] (midnight 2) gapped = 20.0 := by decide +kernel
  obtain ⟨x, hx⟩ := mem_stamps_iff.1 ((hleast.mem (midnight 2)).2 (by decide +kernel))
  obtain ⟨⟨s, hs, hvalue, -⟩, hleast⟩ := hleast.value _ _ hx
  rcases List.mem_cons.1 hs with rfl | hs
  · rw [hx, ← hvalue, hcarried]
  · rw [List.mem_singleton.1 hs, hgapped] at hvalue
    have hbelow := hleast carried List.mem_cons_self (by decide +kernel)
    rw [hcarried, ← hvalue] at hbelow
    exact absurd (by decide +kernel : (1.0 : Float) < 20.0) hbelow

end Reduction

end SeriesAlgebra
