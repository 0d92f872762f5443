import SeriesAlgebra.Proofs.Evaluation.Leaves
import SeriesAlgebra.Proofs.Operator.Constant
import SeriesAlgebra.Proofs.Series.Combining
import SeriesAlgebra.Proofs.Series.Rows

/-!
# Series in order

Operators make series in order of series in order (`keptByOperators_ordered`), and constant
series are in order. So the series that a formula gives is in order, if what is answered for
its leaves is (`Resolver.IsOrdered.isSorted_of_gives`).
-/

namespace SeriesAlgebra

open Evaluation Reading

/-! ### Operations on series -/

namespace Series

/-- Running sums stand at the stamps of the points. -/
theorem map_fst_runningSums (total : Float) (points : List (Stamp × Float)) :
    (runningSums total points).map (·.1) = points.map (·.1) := by
  induction points generalizing total with
  | nil => rfl
  | cons p rest ih =>
    obtain ⟨t, x⟩ := p
    rw [runningSums]
    split <;> exact congrArg (t :: ·) (ih _)

theorem isSorted_cumulate {s : Series} (h : s.IsSorted) : s.cumulate.IsSorted := by
  change ((runningSums 0.0 s.points).map (·.1)).Pairwise (· < ·)
  rw [map_fst_runningSums]
  exact h

theorem isSorted_of_combine {s t r : Series} (hs : s.IsSorted) (ht : t.IsSorted) {op : Arithmetic}
    (h : s.combine t op = .ok r) : r.IsSorted := by
  obtain ⟨u, hu, hsorted, -⟩ := combine_ok hs ht op
  obtain rfl := Except.ok.inj (h.symm.trans hu)
  exact hsorted

end Series

/-! ### Reductions -/

namespace Frame

/-- Whether the index of a table is in order. -/
def IsSorted (f : Frame) : Prop := f.index.stamps.Pairwise (· < ·)

theorem isSorted_of_ofSeries? {list : List Series} {f : Frame} (h : ofSeries? list = .ok f) :
    f.IsSorted := by
  change ofColumns? (Reduction.unionOf list) _ = .ok f at h
  unfold ofColumns? at h
  split at h
  · cases h
  · obtain rfl := Except.ok.inj h
    exact Reduction.sorted_unionOf list

theorem sublist_keepComplete {α : Type} (rows : List (List Float)) (xs : List α) :
    (keepComplete rows xs).Sublist xs := by
  have hzip : ((rows.zip xs).map (·.2)).Sublist xs := by
    rw [List.zip_eq_zip_take_min, List.map_snd_zip (by simp)]
    exact List.take_sublist _ _
  exact (List.filter_sublist.map _).trans hzip

theorem IsSorted.dropIncomplete {f : Frame} (h : f.IsSorted) : f.dropIncomplete.IsSorted :=
  h.sublist (sublist_keepComplete f.rows _)

theorem IsSorted.reduceRows {f : Frame} (h : f.IsSorted) (name : String)
    (reduce : List Float → Float) : (f.reduceRows name reduce).IsSorted := by
  have hstamps : (f.reduceRows name reduce).index.stamps.Sublist f.index.stamps := by
    change (((f.index.stamps.zip f.rows).map fun p => (p.1, reduce p.2)).map (·.1)).Sublist _
    rw [List.map_map]
    change ((f.index.stamps.zip f.rows).map (·.1)).Sublist _
    rw [List.zip_eq_zip_take_min, List.map_fst_zip (by simp)]
    exact List.take_sublist _ _
  exact h.sublist hstamps

end Frame

namespace Reduction

theorem of_ofInputs {operation : String} {inputs : List Series}
    {combine : Unit → Except FrameError Series} {s : Series}
    (h : ofInputs operation inputs combine = .ok s) : combine () = .ok s := by
  unfold ofInputs at h
  split at h
  · cases h
  · exact h

/-- The sum of series has no stamp twice, and neither has a combination that leaves out missing
values. -/
theorem isSorted_of_sum {name : String} {inputs : List Series} {s : Series}
    (h : sum name inputs = .ok s) : s.IsSorted := by
  obtain ⟨f, hf, h⟩ := Result.bind_ok (of_ofInputs h)
  obtain rfl := Except.ok.inj h
  exact (Frame.isSorted_of_ofSeries? hf).dropIncomplete.reduceRows _ _

theorem isSorted_of_dropMissing {operation name : String} {inputs others : List Series}
    {fills : Bool} {value : List Float → Float} {s : Series}
    (h : ofInputs operation inputs (fun _ => do
      return ((← aligned others fills).reduceRows name value).dropMissing) = .ok s) :
    s.IsSorted := by
  obtain ⟨f, hf, h⟩ := Result.bind_ok (of_ofInputs h)
  obtain rfl := Except.ok.inj h
  exact Series.isSorted_dropMissing ((Frame.isSorted_of_ofSeries? hf).reduceRows _ _)

end Reduction

/-! ### Operators -/

namespace Series

/-- A series in order, and itself. -/
def Ordered (s t : Series) : Prop := s = t ∧ s.IsSorted

/-- A combination that gives series in order. -/
theorem keptByCombination_ordered {combine : String → List Series → Except FrameError Series}
    (h : ∀ name inputs s, combine name inputs = .ok s → s.IsSorted) :
    KeptByCombination Ordered combine := by
  intro name inputs others hinputs s hs
  obtain rfl : inputs = others := List.forall₂_eq_eq_eq ▸ hinputs.imp fun _ _ h => h.1
  exact ⟨s, hs, rfl, h name inputs s hs⟩

/-- **Operators make series in order** of series in order. -/
theorem keptByOperators_ordered : KeptByOperators Ordered where
  combine op := by
    rintro ⟨rfl, hs⟩ ⟨rfl, ht⟩
    exact fun u hu => ⟨u, hu, rfl, isSorted_of_combine hs ht hu⟩
  withScalar op x first := by
    rintro ⟨rfl, hs⟩
    exact ⟨rfl, isSorted_mapValues hs _⟩
  options hs := hs.1 ▸ rfl
  withOptions o := by
    rintro ⟨rfl, hs⟩
    exact ⟨rfl, hs⟩
  mapValues _ := by
    rintro ⟨rfl, hs⟩
    exact ⟨rfl, isSorted_mapValues hs _⟩
  cumulate := by
    rintro s _ ⟨rfl, hs⟩
    exact ⟨rfl, isSorted_cumulate hs⟩
  window w := by
    rintro ⟨rfl, hs⟩
    exact ⟨rfl, isSorted_window hs w⟩
  toClocks z w := by
    rintro ⟨rfl, -⟩
    exact fun u hu => ⟨u, hu, rfl, isSorted_of_ofPoints? hu⟩
  sum := keptByCombination_ordered fun _ _ _ => Reduction.isSorted_of_sum
  priority := keptByCombination_ordered fun _ _ _ => Reduction.isSorted_of_dropMissing
  least := keptByCombination_ordered fun _ _ _ => Reduction.isSorted_of_dropMissing
  greatest := keptByCombination_ordered fun _ _ _ => Reduction.isSorted_of_dropMissing
  mean := keptByCombination_ordered fun _ _ _ => Reduction.isSorted_of_dropMissing

end Series

theorem Constant.isSorted_of_series {c : Constant} {w : Window} {s : Series}
    (h : c.series w = .ok s) : s.IsSorted := by
  unfold series at h
  dsimp only at h
  split at h
  · split at h
    · obtain rfl := Except.ok.inj h
      exact .nil
    · split at h
      · cases h
      · exact Series.isSorted_of_ofPoints? (Result.mapError_ok h)
  · obtain rfl := Except.ok.inj h
    exact .nil

theorem Constant.isSorted_of_read {c : Constant} {q : Query} {s : Series} (h : c.read q = .ok s) :
    s.IsSorted := by
  unfold read at h
  split at h
  · obtain rfl := Except.ok.inj h
    exact .nil
  · exact isSorted_of_series h

/-! ### Formulas -/

variable {σ : Type}

/-- **Whether a reader answers with series in order**, as long as its states keep an invariant. -/
structure Resolver.IsOrdered (J : σ → Prop) (A : Resolver σ) : Prop where
  series : ∀ {name q m s m'}, J m → Gives (A.series name q) m s m' → s.IsSorted ∧ J m'
  autotrophic : ∀ {call q m answer m'}, J m → Gives (A.autotrophic call q) m answer m' →
    (∀ v, answer = some v → ∃ s, v = .series s ∧ s.IsSorted) ∧ J m'

/-- **What a formula gives is in order**, if what is answered for its leaves is. -/
theorem Resolver.IsOrdered.isSorted_of_gives {J : σ → Prop} {A : Resolver σ} (hA : A.IsOrdered J)
    {t : Tree} (ht : t.Everywhere Tree.IsFormulaNode) {q : Query} {m m' : σ} {v : Value} (hm : J m)
    (hv : Gives (evaluate .builtin A t q) m v m') : (∀ s, v = .series s → s.IsSorted) ∧ J m' := by
  let C : Comparison σ σ Unit := .lockstep fun m k => m = k ∧ J m
  let L (items : List Tree) (u : Tree) : Prop :=
    u = .list items ∧ Tree.IsLeaf items ∧ ∀ a ∈ items.tail, a.IsScalar
  have hself : t.Corresponds L Tree.Stands t := Tree.corresponds_self ht
    (ht.mono fun _ h => h.stands) fun items _ hleaf hscalar => ⟨rfl, hleaf, hscalar⟩
  have hcompares : Compares C A (fun _ => A) (Value.Related Series.Ordered) Eq L Tree.Stands := by
    refine Compares.kept Series.keptByOperators_ordered fun {items u q} hu => ?_
    obtain ⟨rfl, hseries | hconstant, hscalar⟩ := hu
    · cases hname : Tree.leafName? items with
      | none => exact C.holds_nameless hseries hname _
      | some name =>
        refine C.holds_series hseries hscalar hname hseries hscalar hname rfl ?_
        rintro m _ ⟨rfl, hm⟩ s m' hs
        obtain ⟨hsorted, hm'⟩ := hA.series hm hs
        exact ⟨s, m', hs, fun o _ => .series ⟨rfl, hsorted⟩, rfl, hm'⟩
    · rintro m _ ⟨rfl, hm⟩ v m' hv
      refine ⟨v, m', hv, ?_⟩
      rw [evaluate_constant A hconstant hscalar] at hv
      obtain ⟨answer, k, hanswer, hv⟩ := gives_bind.1 hv
      obtain ⟨hordered, hk⟩ := hA.autotrophic hm hanswer
      cases answer with
      | some w =>
        obtain ⟨rfl, rfl⟩ := gives_pure.1 hv
        obtain ⟨s, rfl, hsorted⟩ := hordered _ rfl
        exact ⟨.series ⟨rfl, hsorted⟩, rfl, hk⟩
      | none =>
        obtain ⟨hread, rfl⟩ := gives_settle.1 hv
        obtain ⟨c, -, hread⟩ := Result.bind_ok hread
        obtain ⟨s, hs, hread⟩ := Result.bind_ok hread
        obtain rfl := Except.ok.inj hread
        exact ⟨.series ⟨rfl, Constant.isSorted_of_read hs⟩, rfl, hk⟩
  obtain ⟨w, _, -, hvw, rfl, hm'⟩ := hcompares.evaluate hself q q rfl m m ⟨rfl, hm⟩ v m' hv
  refine ⟨?_, hm'⟩
  rintro s rfl
  cases hvw with
  | series hs => exact hs.2

end SeriesAlgebra
