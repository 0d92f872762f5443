import SeriesAlgebra.Proofs.Frame.Columns
import SeriesAlgebra.Proofs.Order.Relabeling
import SeriesAlgebra.Proofs.Series.Combining
import SeriesAlgebra.Series.Reduction

/-!
# Combinations row by row

Series that are laid side by side make a table that has at each stamp of the union what the
series say there, filled as they ask (`Reduction.aligned_ok`). So a combination row by row
always succeeds if there is anything to combine, and the point it has at a stamp, if any, is
what its row comes down to (`Reduction.sum_ok`, `Reduction.reduced_ok`).

Filling and pruning look beyond the row. Of inputs that ask for neither, the row is what they
say at the stamp by themselves (`Reduction.isRowwise_sum` and so on).
-/

namespace SeriesAlgebra

namespace Series

/-! ### Series without options that look around -/

/-- A series in order that is neither filled nor pruned where it is combined. -/
structure IsPlain (s : Series) : Prop where
  sorted : s.IsSorted
  fill : s.options.fill = none
  prune : s.options.prune = none

/-- **Whether two series are combined alike**: neither is filled nor pruned, and they count as
much as each other. -/
structure CombineAlike (s r : Series) : Prop where
  left : s.IsPlain
  right : r.IsPlain
  options : s.options = r.options

variable {s r s' r' : Series}

theorem IsPlain.mapValues (h : s.IsPlain) (f : Float → Float) : (s.mapValues f).IsPlain :=
  ⟨isSorted_mapValues h.sorted f, h.fill, h.prune⟩

theorem CombineAlike.mapValues (h : CombineAlike s r) (f : Float → Float) :
    CombineAlike (s.mapValues f) (r.mapValues f) :=
  ⟨h.left.mapValues f, h.right.mapValues f, h.options⟩

theorem IsPlain.window (h : s.IsPlain) (w : Window) : (s.window w).IsPlain := by
  refine ⟨isSorted_window h.sorted w, ?_, ?_⟩
  · rw [options_window]
    exact h.fill
  · rw [options_window]
    exact h.prune

theorem CombineAlike.window (h : CombineAlike s r) (w : Window) :
    CombineAlike (s.window w) (r.window w) := by
  refine ⟨h.left.window w, h.right.window w, ?_⟩
  rw [options_window, options_window, h.options]

theorem combineAlike_withOptions (hs : s.IsSorted) (hr : r.IsSorted) {o : SeriesOptions}
    (hfill : o.fill = none) (hprune : o.prune = none) :
    CombineAlike (s.withOptions o) (r.withOptions o) := ⟨⟨hs, hfill, hprune⟩, ⟨hr, hfill, hprune⟩, rfl⟩

theorem isPlain_of_unset (h : s.IsSorted) (hs : s.options = .unset) : s.IsPlain := by
  refine ⟨h, ?_, ?_⟩ <;> rw [hs] <;> rfl

/-- Results of combinations, which have no options, are combined alike. -/
theorem combineAlike_of_unset (hs : s.IsSorted) (hr : r.IsSorted) (hso : s.options = .unset)
    (hro : r.options = .unset) : CombineAlike s r :=
  ⟨isPlain_of_unset hs hso, isPlain_of_unset hr hro, hso.trans hro.symm⟩

/-- Arithmetic of series that are combined alike, by what the results have at each stamp. -/
theorem CombineAlike.yields_combine {S : Series → Series → Prop} (h : CombineAlike s r)
    (h' : CombineAlike s' r') (op : Arithmetic)
    (hS : ∀ u v, CombineAlike u v → (∀ t, u.at? t = pointOfBoth op (s.at? t) (s'.at? t)) →
      (∀ t, v.at? t = pointOfBoth op (r.at? t) (r'.at? t)) → S u v) :
    Yields S (s.combine s' op) (r.combine r' op) := by
  obtain ⟨u, hu, husorted, huoptions, hupoint⟩ := combine_ok h.left.sorted h'.left.sorted op
  obtain ⟨v, hv, hvsorted, hvoptions, hvpoint⟩ := combine_ok h.right.sorted h'.right.sorted op
  rw [hu, hv]
  exact Yields.ok
    (hS u v (combineAlike_of_unset husorted hvsorted huoptions hvoptions) hupoint hvpoint)

end Series

namespace Frame

/-! ### Tables of functions -/

/-- **Whether a table holds**, at given stamps, what functions have there. -/
structure Tabulates (f : Frame) (stamps : List Stamp) (columns : List (Stamp → Float)) : Prop where
  index : f.index.stamps = stamps
  columns : f.columns.map (·.2) = columns.map fun g => stamps.map g

/-- What functions have at a stamp. -/
def rowAt (columns : List (Stamp → Float)) (t : Stamp) : List Float := columns.map fun g => g t

theorem rowsOf_map (stamps : List Stamp) (columns : List (Stamp → Float)) :
    rowsOf stamps.length (columns.map fun g => stamps.map g) = stamps.map (rowAt columns) := by
  induction stamps with
  | nil => rfl
  | cons t rest ih =>
    rw [List.length_cons, rowsOf, List.map_cons, heads, List.map_map, List.map_map]
    exact congrArg _ ih

variable {f : Frame} {stamps : List Stamp} {columns : List (Stamp → Float)}

theorem Tabulates.rows (h : f.Tabulates stamps columns) : f.rows = stamps.map (rowAt columns) := by
  rw [Frame.rows, h.columns, TimeIndex.size, h.index, rowsOf_map]

theorem keepComplete_map {α : Type} (stamps : List Stamp) (row : Stamp → List Float)
    (g : Stamp → α) : keepComplete (stamps.map row) (stamps.map g) =
      (stamps.filter fun t => isComplete (row t)).map g := by
  rw [keepComplete, List.zip_map', List.filter_map, List.map_map]
  rfl

/-- Without the rows that lack a value, the table has fewer stamps. -/
theorem Tabulates.dropIncomplete (h : f.Tabulates stamps columns) : f.dropIncomplete.Tabulates
    (stamps.filter fun t => isComplete (rowAt columns t)) columns := by
  unfold Frame.dropIncomplete
  refine ⟨?_, ?_⟩
  · rw [h.rows, h.index]
    exact (congrArg _ (List.map_id stamps).symm).trans
      ((keepComplete_map stamps _ id).trans (List.map_id _))
  · have hcolumns : (f.mapColumns ⟨keepComplete f.rows f.index.stamps⟩
        (keepComplete f.rows)).columns.map (·.2) = (f.columns.map (·.2)).map (keepComplete f.rows) := by
      unfold mapColumns
      rw [List.map_map, List.map_map]
      rfl
    rw [hcolumns, h.columns, List.map_map, h.rows]
    exact List.map_congr_left fun g _ => keepComplete_map stamps _ g

/-- The series of what the rows come down to. -/
theorem Tabulates.reduceRows (h : f.Tabulates stamps columns) (name : String)
    (reduce : List Float → Float) : f.reduceRows name reduce =
      (Series.empty name).withPoints (stamps.map fun t => (t, reduce (rowAt columns t))) := by
  rw [Frame.reduceRows, stampedRows, h.rows, h.index, ← List.map_prod_left_eq_zip, List.map_map]
  rfl

end Frame

namespace Reduction

open SeriesAlgebra.Frame Series

variable {inputs : List Series} {t : Stamp}

/-! ### Series side by side -/

theorem toString_injective : Function.Injective (toString : Nat → String) := by
  intro m n h
  have hdigits : Nat.toDigits 10 m = Nat.toDigits 10 n := by
    rw [← Nat.toList_repr, ← Nat.toList_repr]
    exact congrArg String.toList h
  calc
    m = Nat.ofDigitChars 10 (Nat.toDigits 10 m) 0 := Nat.ofDigitChars_ten_toDigits.symm
    _ = Nat.ofDigitChars 10 (Nat.toDigits 10 n) 0 := by rw [hdigits]
    _ = n := Nat.ofDigitChars_ten_toDigits

/-- The union of the indexes of several series. -/
def unionOf (inputs : List Series) : TimeIndex := TimeIndex.unionAll (inputs.map Series.index)

theorem mem_unionOf : t ∈ (unionOf inputs).stamps ↔ ∃ s ∈ inputs, t ∈ s.index.stamps := by
  unfold unionOf
  rw [TimeIndex.mem_unionAll]
  constructor
  · rintro ⟨_, hindex, ht⟩
    obtain ⟨s, hs, rfl⟩ := List.mem_map.1 hindex
    exact ⟨s, hs, ht⟩
  · rintro ⟨s, hs, ht⟩
    exact ⟨s.index, List.mem_map_of_mem hs, ht⟩

theorem unionOf_congr {others : List Series}
    (h : ∀ u, u ∈ (unionOf inputs).stamps ↔ u ∈ (unionOf others).stamps) :
    unionOf inputs = unionOf others := by
  unfold unionOf TimeIndex.unionAll TimeIndex.ofUnsorted at h ⊢
  simp only [mem_sortedSet] at h
  rw [sortedSet_congr h]

theorem sorted_unionOf (inputs : List Series) : (unionOf inputs).stamps.Pairwise (· < ·) :=
  pairwise_sortedSet IsStrictOrder.trans IsStrictOrder.compare _

/-- Rows are the same if what their series say is. -/
theorem rowAt_congr {others : List Series}
    (h : List.Forall₂ (fun s r => s.valueOn t = r.valueOn t) inputs others) :
    rowAt (inputs.map valueOn) t = rowAt (others.map valueOn) t := by
  unfold rowAt
  induction h with
  | nil => rfl
  | cons hst _ ih => rw [List.map_cons, List.map_cons, List.map_cons, List.map_cons, ih, hst]

/-- A row misses all its values if its series do. -/
theorem rowAt_missing (h : ∀ s ∈ inputs, s.valueOn t = missing) :
    ∀ x ∈ rowAt (inputs.map valueOn) t, x = missing := by
  intro x hx
  rw [rowAt, List.map_map] at hx
  obtain ⟨s, hs, rfl⟩ := List.mem_map.1 hx
  exact h s hs

theorem rowAt_ne_nil (h : inputs ≠ []) (t : Stamp) : rowAt (inputs.map valueOn) t ≠ [] := by
  rw [rowAt, List.map_map]
  exact fun hnil => h (List.map_eq_nil_iff.1 hnil)

/-- An input on an index, filled as it asks if inputs are filled. -/
def extended (fills : Bool) (index : TimeIndex) (s : Series) : Series :=
  match fills, s.options.fill with
  | true, some policy => (s.reindex index).fill policy
  | _, _ => s.reindex index

theorem extended_of_unfilled {fills : Bool} {s : Series} (h : fills = true → s.options.fill = none)
    (index : TimeIndex) : extended fills index s = s.reindex index := by
  cases fills with
  | false => rfl
  | true =>
    unfold extended
    rw [h rfl]

/-- Filling changes values and no stamps. -/
theorem stamps_extended (fills : Bool) (index : TimeIndex) (s : Series) :
    (extended fills index s).index.stamps = index.stamps := by
  have hreindex : (s.reindex index).index.stamps = index.stamps := by
    change (index.stamps.map fun u => (u, (s.at? u).getD missing)).map (·.1) = _
    rw [List.map_map]
    exact List.map_id _
  unfold extended
  split
  · rename_i policy hfill
    refine Eq.trans (List.map_fst_zip ?_) hreindex
    rw [FillPolicy.length_apply, values, List.length_map, List.length_map]
  · exact hreindex

/-- An input at its position, on the union. -/
def columnOf (fills : Bool) (union : TimeIndex) (input : Series × Nat) : Series :=
  (extended fills union input.1).withName (toString input.2)

theorem aligned_eq (inputs : List Series) (fills : Bool) : aligned inputs fills =
    ofSeries? (inputs.zipIdx.map (columnOf fills (unionOf inputs))) := rfl

/-- The union is that of the columns on it. -/
theorem unionOf_columns (inputs : List Series) (fills : Bool) :
    unionOf (inputs.zipIdx.map (columnOf fills (unionOf inputs))) = unionOf inputs := by
  have hindex (p : Series × Nat) :
      (columnOf fills (unionOf inputs) p).index.stamps = (unionOf inputs).stamps :=
    stamps_extended fills _ p.1
  refine unionOf_congr fun u => ?_
  rw [mem_unionOf]
  constructor
  · rintro ⟨s, hs, hu⟩
    obtain ⟨p, -, rfl⟩ := List.mem_map.1 hs
    exact hindex p ▸ hu
  · intro hu
    obtain ⟨s, hs, -⟩ := mem_unionOf.1 hu
    obtain ⟨i, hi, rfl⟩ := List.mem_iff_getElem.1 hs
    exact ⟨columnOf fills (unionOf inputs) (inputs[i], i), List.mem_map_of_mem
      (List.mem_zipIdx_iff_getElem?.2 (List.getElem?_eq_getElem hi)), (hindex _).symm ▸ hu⟩

theorem map_zipIdx_fst {α β : Type} (xs : List α) (g : α → β) :
    (xs.zipIdx.map fun p => g p.1) = xs.map g := by
  conv_rhs => rw [← List.zipIdx_map_fst 0 xs, List.map_map]
  rfl

/-- What inputs say on the union of their indexes, filled as they ask if inputs are filled. -/
def columnsOf (fills : Bool) (inputs : List Series) : List (Stamp → Float) :=
  inputs.map fun s => (extended fills (unionOf inputs) s).valueOn

/-- An input that is not filled says on the union what it says. -/
theorem valueOn_extended {fills : Bool} {s : Series} (hs : s ∈ inputs)
    (h : fills = true → s.options.fill = none) :
    (extended fills (unionOf inputs) s).valueOn = s.valueOn := by
  funext u
  rw [extended_of_unfilled h]
  refine (valueOn_map s _ s.valueOn).trans ?_
  split
  · rfl
  · rename_i hnone
    exact (valueOn_of_not_mem fun hu => hnone (mem_unionOf.2 ⟨s, hs, hu⟩)).symm

theorem columnsOf_of_unfilled {fills : Bool}
    (h : fills = true → ∀ s ∈ inputs, s.options.fill = none) :
    columnsOf fills inputs = inputs.map valueOn :=
  List.map_congr_left fun s hs => valueOn_extended hs fun hfills => h hfills s hs

/-- **Series side by side** make a table of what they say. -/
theorem aligned_ok (inputs : List Series) (fills : Bool) :
    ∃ f, aligned inputs fills = .ok f ∧
      f.Tabulates (unionOf inputs).stamps (columnsOf fills inputs) := by
  let columns := inputs.zipIdx.map (columnOf fills (unionOf inputs))
  have hvalues (p : Series × Nat) :
      ((columnOf fills (unionOf inputs) p).reindex (unionOf inputs)).values =
        (unionOf inputs).stamps.map (extended fills (unionOf inputs) p.1).valueOn := by
    unfold values reindex withPoints
    rw [List.map_map]
    rfl
  have hcolumns : (columns.map fun s => (s.name, (s.reindex (unionOf inputs)).values)).map (·.2) =
      (columnsOf fills inputs).map fun g => (unionOf inputs).stamps.map g := by
    rw [columnsOf, List.map_map, List.map_map, List.map_map]
    refine (List.map_congr_left fun p _ => hvalues p).trans ?_
    exact map_zipIdx_fst inputs fun s =>
      (unionOf inputs).stamps.map (extended fills (unionOf inputs) s).valueOn
  have hnames : ((columns.map fun s => (s.name, (s.reindex (unionOf inputs)).values)).map
      (·.1)).Nodup := by
    rw [List.map_map, List.map_map]
    change (inputs.zipIdx.map (toString ∘ Prod.snd)).Nodup
    rw [← List.map_map, List.zipIdx_map_snd]
    exact List.Nodup.map toString_injective List.nodup_range'
  have hfault : columnFault? (unionOf inputs).size []
      (columns.map fun s => (s.name, (s.reindex (unionOf inputs)).values)) = none := by
    refine columnFault?_eq_none_iff.2 ⟨fun c hc => ?_, hnames, fun _ _ => List.not_mem_nil⟩
    have hmem := List.mem_map_of_mem (f := (·.2)) hc
    rw [hcolumns] at hmem
    obtain ⟨g, -, hg⟩ := List.mem_map.1 hmem
    rw [← hg, List.length_map, TimeIndex.size]
  refine ⟨⟨unionOf inputs, columns.map fun s => (s.name, (s.reindex (unionOf inputs)).values)⟩,
    ?_, rfl, hcolumns⟩
  rw [aligned_eq]
  change ofColumns? (unionOf columns)
    (columns.map fun s => (s.name, (s.reindex (unionOf columns)).values)) = _
  rw [show unionOf columns = unionOf inputs from unionOf_columns inputs fills, ofColumns?, hfault]

/-! ### Rows that are reduced -/

/-- What no input has a point for, all columns miss. -/
theorem columnsOf_of_not_mem {fills : Bool} (h : t ∉ (unionOf inputs).stamps) :
    ∀ x ∈ rowAt (columnsOf fills inputs) t, x = missing := by
  intro x hx
  rw [rowAt, columnsOf, List.map_map] at hx
  obtain ⟨s, -, rfl⟩ := List.mem_map.1 hx
  exact valueOn_of_not_mem fun ht => h (stamps_extended fills _ s ▸ ht)

/-- What the rows of a table come down to at a stamp. -/
theorem at?_reduceRows {f : Frame} {stamps : List Stamp} {columns : List (Stamp → Float)}
    (h : f.Tabulates stamps columns) (name : String) (reduce : List Float → Float) (t : Stamp) :
    (f.reduceRows name reduce).at? t =
      if t ∈ stamps then some (reduce (rowAt columns t)) else none := by
  rw [h.reduceRows, at?_map]

theorem isSorted_reduceRows {f : Frame} {stamps : List Stamp} {columns : List (Stamp → Float)}
    (h : f.Tabulates stamps columns) (hstamps : stamps.Pairwise (· < ·)) (name : String)
    (reduce : List Float → Float) : (f.reduceRows name reduce).IsSorted := by
  rw [h.reduceRows]
  exact isSorted_map hstamps _

/-- A value that is a point if it is not missing. -/
def ifPresent (x : Float) : Option Float := if !x.isNaN then some x else none

theorem ifPresent_missing : ifPresent missing = none := by
  rw [ifPresent, Double.isNaN_missing]
  rfl

theorem ifPresent_eq_some_iff {x y : Float} : ifPresent x = some y ↔ x = y ∧ y.isNaN = false := by
  rw [ifPresent]
  cases hx : x.isNaN with
  | false => exact ⟨fun h => Option.some.inj h ▸ ⟨rfl, hx⟩, fun h => congrArg some h.1⟩
  | true =>
    refine iff_of_false (fun h => by cases h) ?_
    rintro ⟨rfl, hy⟩
    cases hx.symm.trans hy

/-- **A reduction that leaves out missing values** has a point of every row that does not come down to
a missing value, if one without any value does. -/
theorem reduced_ok (operation : String) {value : List Float → Float} (fills : Bool)
    (prepare : Series → Series) (hmissing : ∀ row, (∀ x ∈ row, x = missing) → value row = missing)
    (hne : inputs ≠ []) (name : String) :
    ∃ u, (ofInputs operation inputs fun _ => do
        return ((← aligned (inputs.map prepare) fills).reduceRows name value).dropMissing) = .ok u ∧
      u.IsSorted ∧ u.options = .unset ∧
      ∀ t, u.at? t = ifPresent (value (rowAt (columnsOf fills (inputs.map prepare)) t)) := by
  obtain ⟨f, hf, htable⟩ := aligned_ok (inputs.map prepare) fills
  have hsorted := isSorted_reduceRows htable (sorted_unionOf _) name value
  refine ⟨(f.reduceRows name value).dropMissing, ?_, isSorted_dropMissing hsorted, rfl, fun t => ?_⟩
  · rw [ofInputs, if_neg (by simpa using hne), hf]
    rfl
  · rw [at?_dropMissing hsorted, at?_reduceRows htable]
    split
    · exact Option.filter_some
    · rename_i hnone
      rw [hmissing _ (columnsOf_of_not_mem hnone), ifPresent_missing]
      rfl

/-- **A sum** has a point of every row that has all its values. -/
theorem sum_ok (hne : inputs ≠ []) (name : String) :
    ∃ u, sum name inputs = .ok u ∧ u.IsSorted ∧ u.options = .unset ∧
      ∀ t, u.at? t = if isComplete (rowAt (columnsOf true inputs) t) then
        some (rowSum (rowAt (columnsOf true inputs) t)) else none := by
  obtain ⟨f, hf, htable⟩ := aligned_ok inputs true
  have htable := htable.dropIncomplete
  refine ⟨f.dropIncomplete.reduceRows name rowSum, ?_,
    isSorted_reduceRows htable ((sorted_unionOf _).filter _) name rowSum, ?_, fun t => ?_⟩
  · rw [sum, ofInputs, if_neg (by simpa using hne), hf]
    rfl
  · rw [htable.reduceRows]
    rfl
  · rw [at?_reduceRows htable]
    by_cases hcomplete : isComplete (rowAt (columnsOf true inputs) t) = true
    · have hmem : t ∈ (unionOf inputs).stamps := by
        by_contra hnone
        obtain ⟨s, hs⟩ := List.exists_mem_of_ne_nil inputs hne
        have hx := List.mem_map_of_mem (f := fun g : Stamp → Float => g t)
          (List.mem_map_of_mem (f := fun s => (extended true (unionOf inputs) s).valueOn) hs)
        have hpresent := List.all_eq_true.1 hcomplete _ hx
        rw [columnsOf_of_not_mem hnone _ hx, Double.isNaN_missing] at hpresent
        cases hpresent
      rw [if_pos (List.mem_filter.2 ⟨hmem, hcomplete⟩), if_pos hcomplete]
    · have hnone : t ∉ (unionOf inputs).stamps.filter fun t =>
          isComplete (rowAt (columnsOf true inputs) t) := fun h => hcomplete (List.mem_filter.1 h).2
      rw [if_neg hnone, if_neg hcomplete]

/-! ### Combinations -/

/-- **Whether a combination goes row by row**: which point it has at a stamp, if any, is a function
of the weights of its inputs and of the row there, and it has none where they all miss their values. -/
structure IsRowwise (combine : String → List Series → Except FrameError Series)
    (point : List Float → List Float → Option Float) : Prop where
  empty : ∀ name u, combine name [] ≠ .ok u
  ok : ∀ name inputs, inputs ≠ [] → (∀ s ∈ inputs, IsPlain s) →
    ∃ u, combine name inputs = .ok u ∧ u.IsSorted ∧ u.options = .unset ∧
      ∀ t, u.at? t = point (inputs.map weightOf) (rowAt (inputs.map valueOn) t)
  missing : ∀ weights row, row ≠ [] → (∀ x ∈ row, x = missing) → point weights row = none

/-- **A combination row by row** of series that are combined alike, by what the results have at
each stamp. -/
theorem IsRowwise.yields {combine : String → List Series → Except FrameError Series}
    {point : List Float → List Float → Option Float} (hcombine : IsRowwise combine point)
    {S T : Series → Series → Prop} {others : List Series} (h : List.Forall₂ T inputs others)
    (hT : ∀ s r, T s r → CombineAlike s r) (name : String)
    (hS : ∀ u v, CombineAlike u v → inputs ≠ [] → others ≠ [] →
      (∀ t, u.at? t = point (inputs.map weightOf) (rowAt (inputs.map valueOn) t)) →
      (∀ t, v.at? t = point (inputs.map weightOf) (rowAt (others.map valueOn) t)) → S u v) :
    Yields S (combine name inputs) (combine name others) := by
  have halike : (∀ s ∈ inputs, IsPlain s) ∧ (∀ s ∈ others, IsPlain s) ∧
      inputs.map weightOf = others.map weightOf := by
    clear hS
    induction h with
    | nil => simp
    | cons hst _ ih =>
      obtain ⟨hleft, hright, hweights⟩ := ih
      have halike := hT _ _ hst
      refine ⟨List.forall_mem_cons.2 ⟨halike.left, hleft⟩, List.forall_mem_cons.2 ⟨halike.right, hright⟩, ?_⟩
      rw [List.map_cons, List.map_cons, hweights, weightOf, weightOf, halike.options]
  obtain ⟨hleft, hright, hweights⟩ := halike
  intro u hu
  by_cases hne : inputs = []
  · subst hne
    exact absurd hu (hcombine.empty name u)
  · have hne' : others ≠ [] := by
      rintro rfl
      cases h
      exact hne rfl
    obtain ⟨u', hu', husorted, huoptions, hupoint⟩ := hcombine.ok name inputs hne hleft
    obtain ⟨v, hv, hvsorted, hvoptions, hvpoint⟩ := hcombine.ok name others hne' hright
    obtain rfl := Except.ok.inj (hu.symm.trans hu')
    exact ⟨v, hv, hS u v (combineAlike_of_unset husorted hvsorted huoptions hvoptions) hne hne'
      hupoint (hweights ▸ hvpoint)⟩

/-- There is no point where all inputs miss their values. -/
theorem point_eq_none {combine : String → List Series → Except FrameError Series}
    {point : List Float → List Float → Option Float} (hcombine : IsRowwise combine point)
    (hne : inputs ≠ []) (h : ∀ s ∈ inputs, s.valueOn t = missing) (weights : List Float) :
    point weights (rowAt (inputs.map valueOn) t) = none :=
  hcombine.missing weights _ (rowAt_ne_nil hne t) (rowAt_missing h)

/-- A combination that leaves out missing values goes row by row, if what misses everywhere
misses. -/
theorem isRowwise_dropMissing (operation : String) (value : List Float → List Float → Float)
    (fills : Bool) {prepare : Series → Series}
    (hprepare : ∀ s, IsPlain s → IsPlain (prepare s) ∧ ∀ t, (prepare s).valueOn t = s.valueOn t)
    (hmissing : ∀ weights row, (∀ x ∈ row, x = missing) → value weights row = missing) :
    IsRowwise (fun name inputs => ofInputs operation inputs fun _ => do
      return ((← aligned (inputs.map prepare) fills).reduceRows name
        (value (inputs.map weightOf))).dropMissing) fun weights row => ifPresent (value weights row) where
  empty name u h := by cases h
  ok name inputs hne hplain := by
    have hfill : fills = true → ∀ s ∈ inputs.map prepare, s.options.fill = none := by
      intro _ s hs
      obtain ⟨s, hmem, rfl⟩ := List.mem_map.1 hs
      exact (hprepare s (hplain s hmem)).1.fill
    have hrow (t : Stamp) : rowAt (columnsOf fills (inputs.map prepare)) t =
        rowAt (inputs.map valueOn) t := by
      rw [columnsOf_of_unfilled hfill, rowAt, rowAt, List.map_map, List.map_map, List.map_map]
      exact List.map_congr_left fun s hs => (hprepare s (hplain s hs)).2 t
    obtain ⟨u, hu, hsorted, hoptions, hpoint⟩ :=
      reduced_ok operation fills prepare (hmissing (inputs.map weightOf)) hne name
    exact ⟨u, hu, hsorted, hoptions, fun t => hrow t ▸ hpoint t⟩
  missing weights row _ h := by rw [hmissing weights row h, ifPresent_missing]

theorem present_eq_nil {row : List Float} (h : ∀ x ∈ row, x = missing) : present row = [] :=
  List.filter_eq_nil_iff.2 fun x hx => by
    rw [h x hx, Double.isNaN_missing]
    decide

/-- **The sum** of a row, if it has all its values. -/
theorem isRowwise_sum :
    IsRowwise sum fun _ row => if isComplete row then some (rowSum row) else none where
  empty name u h := by cases h
  ok name inputs hne hplain := by
    have hcolumns : columnsOf true inputs = inputs.map valueOn :=
      columnsOf_of_unfilled fun _ s hs => (hplain s hs).fill
    exact hcolumns ▸ sum_ok hne name
  missing weights row hne h := by
    obtain ⟨x, hx⟩ := List.exists_mem_of_ne_nil _ hne
    refine if_neg fun hcomplete => ?_
    have hpresent := List.all_eq_true.1 hcomplete x hx
    rw [h x hx, Double.isNaN_missing] at hpresent
    cases hpresent

theorem isPlain_pruned {s : Series} (h : IsPlain s) :
    IsPlain (pruned s) ∧ ∀ t, (pruned s).valueOn t = s.valueOn t := by
  have hpruned : pruned s = s.dropMissing := by
    unfold pruned
    rw [h.prune]
  rw [hpruned]
  exact ⟨⟨isSorted_dropMissing h.sorted, h.fill, h.prune⟩, fun _ => valueOn_dropMissing h.sorted⟩

/-- Without any value there is no first one. -/
theorem firstPresent_missing {row : List Float} (h : ∀ x ∈ row, x = missing) :
    firstPresent row = missing := by
  have hnone : row.find? (!·.isNaN) = none := List.find?_eq_none.2 fun x hx => by
    rw [h x hx, Double.isNaN_missing]
    decide
  rw [firstPresent, hnone, Option.getD_none]

/-- **The first value** of a row. -/
theorem isRowwise_priority : IsRowwise priority fun _ row => ifPresent (firstPresent row) :=
  isRowwise_dropMissing "priority" (fun _ => firstPresent) false (fun _ => isPlain_pruned)
    fun _ _ => firstPresent_missing

theorem isRowwise_of_unprepared (operation : String) (value : List Float → List Float → Float)
    (hmissing : ∀ weights row, (∀ x ∈ row, x = missing) → value weights row = missing) :
    IsRowwise (fun name inputs => ofInputs operation inputs fun _ => do
      return ((← aligned inputs true).reduceRows name
        (value (inputs.map weightOf))).dropMissing) fun weights row => ifPresent (value weights row) := by
  have hself (s : Series) (hs : IsPlain s) : IsPlain (id s) ∧ ∀ t, (id s).valueOn t = s.valueOn t :=
    ⟨hs, fun _ => rfl⟩
  simpa only [List.map_id] using isRowwise_dropMissing operation value true hself hmissing

/-- **The least value** of a row. -/
theorem isRowwise_least : IsRowwise least fun _ row =>
    ifPresent ((present row).foldl smaller missing) :=
  isRowwise_of_unprepared "min" (fun _ row => (present row).foldl smaller missing) fun _ row h => by
    rw [present_eq_nil h, List.foldl_nil]

/-- **The greatest value** of a row. -/
theorem isRowwise_greatest : IsRowwise greatest fun _ row =>
    ifPresent ((present row).foldl greater missing) :=
  isRowwise_of_unprepared "max" (fun _ row => (present row).foldl greater missing) fun _ row h => by
    rw [present_eq_nil h, List.foldl_nil]

/-- Without any value there is no mean. -/
theorem rowMean_missing (weights : List Float) {row : List Float} (h : ∀ x ∈ row, x = missing) :
    rowMean weights row = missing := by
  have hzero : ((0.0 : Float) == 0.0) = true := by decide +kernel
  unfold rowMean
  rw [List.filter_eq_nil_iff.2, List.foldl_nil]
  · exact if_pos hzero
  · intro p hp
    show ¬ (!p.1.isNaN) = true
    rw [h _ (List.of_mem_zip hp).1, Double.isNaN_missing]
    decide

/-- **The weighted mean** of a row. -/
theorem isRowwise_mean :
    IsRowwise mean fun weights row => ifPresent (rowMean weights row) :=
  isRowwise_of_unprepared "row-mean" rowMean fun weights _ => rowMean_missing weights

end Reduction

end SeriesAlgebra
