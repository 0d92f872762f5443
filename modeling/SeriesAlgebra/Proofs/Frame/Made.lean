import SeriesAlgebra.Proofs.Frame.Rows
import SeriesAlgebra.Proofs.Store.Deltas

/-!
# Series and tables that can be made

Series and tables come from an index in order or from points in order, and from each other by the
operations on them (`Series.IsMade`, `Frame.IsMade`). Each operation keeps series in order and tables
well formed, so that no sequence of operations leads out of these, and all positions that an operation
reads are within bounds (`isWellFormed_of_isMade`).
-/

namespace SeriesAlgebra

mutual

/-- **Whether a series can be made** by operations on series and tables. -/
inductive Series.IsMade : Series → Prop
  | ofIndex {name : String} {index : TimeIndex} {values : List Float} {s : Series}
    (hindex : index.IsSorted) (hs : Series.ofIndex? name index values = .ok s) : Series.IsMade s
  | ofPoints {name : String} {points : List (Stamp × Float)} {s : Series}
    (hs : Series.ofPoints? name points = .ok s) : Series.IsMade s
  | empty (name : String) : Series.IsMade (.empty name)
  | window {s : Series} (hs : Series.IsMade s) (w : Window) : Series.IsMade (s.window w)
  | reindex {s : Series} (hs : Series.IsMade s) {target : TimeIndex} (htarget : target.IsSorted) :
    Series.IsMade (s.reindex target)
  | fill {s : Series} (hs : Series.IsMade s) (p : FillPolicy) : Series.IsMade (s.fill p)
  | dropMissing {s : Series} (hs : Series.IsMade s) : Series.IsMade s.dropMissing
  | pruneLast {s : Series} (hs : Series.IsMade s) (count : Nat) : Series.IsMade (s.pruneLast count)
  | mapValues {s : Series} (hs : Series.IsMade s) (f : Float → Float) : Series.IsMade (s.mapValues f)
  | withScalar {s : Series} (hs : Series.IsMade s) (op : Arithmetic) (x : Float) (first : Bool) :
    Series.IsMade (s.withScalar op x first)
  | combine {s r u : Series} (hs : Series.IsMade s) (hr : Series.IsMade r) {op : Arithmetic}
    (hu : s.combine r op = .ok u) : Series.IsMade u
  | cumulate {s : Series} (hs : Series.IsMade s) : Series.IsMade s.cumulate
  | withName {s : Series} (hs : Series.IsMade s) (name : String) : Series.IsMade (s.withName name)
  | withOptions {s : Series} (hs : Series.IsMade s) (options : SeriesOptions) :
    Series.IsMade (s.withOptions options)
  | diff {base : Option Series} {next : Series} (hbase : ∀ s, base = some s → Series.IsMade s)
    (hnext : Series.IsMade next) : Series.IsMade (Series.diff base next)
  | staircase {h : History} {name : String} {delay : Span} {w : Window} {s : Series}
    (hs : h.staircase name delay w = .ok s) : Series.IsMade s
  | reduction {combination : String → List Series → Except FrameError Series}
    (hcombination : combination ∈ [Reduction.sum, Reduction.priority, Reduction.least,
      Reduction.greatest, Reduction.mean])
    {name : String} {inputs : List Series} (hinputs : ∀ s ∈ inputs, Series.IsMade s) {s : Series}
    (hs : combination name inputs = .ok s) : Series.IsMade s
  | column {f : Frame} (hf : Frame.IsMade f) {name : String} {s : Series}
    (hs : f.column? name = some s) : Series.IsMade s
  | series {f : Frame} (hf : Frame.IsMade f) {s : Series} (hs : s ∈ f.seriesList) : Series.IsMade s
  | reduceRows {f : Frame} (hf : Frame.IsMade f) (name : String) (reduce : List Float → Float) :
    Series.IsMade (f.reduceRows name reduce)

/-- **Whether a table can be made** by operations on series and tables. -/
inductive Frame.IsMade : Frame → Prop
  | ofColumns {index : TimeIndex} {columns : List (String × List Float)} {f : Frame}
    (hindex : index.IsSorted) (hf : Frame.ofColumns? index columns = .ok f) : Frame.IsMade f
  | empty : Frame.IsMade .empty
  | ofSeries {list : List Series} (hlist : ∀ s ∈ list, Series.IsMade s) {f : Frame}
    (hf : Frame.ofSeries? list = .ok f) : Frame.IsMade f
  | window {f : Frame} (hf : Frame.IsMade f) (w : Window) : Frame.IsMade (f.window w)
  | dropIncomplete {f : Frame} (hf : Frame.IsMade f) : Frame.IsMade f.dropIncomplete
  | withScalar {f : Frame} (hf : Frame.IsMade f) (op : Arithmetic) (x : Float) (first : Bool) :
    Frame.IsMade (f.withScalar op x first)
  | withSeries {f u : Frame} (hf : Frame.IsMade f) {s : Series} (hs : Series.IsMade s)
    {op : Arithmetic} {first : Bool} (hu : f.withSeries s op first = .ok u) : Frame.IsMade u
  | combine {f g u : Frame} (hf : Frame.IsMade f) (hg : Frame.IsMade g) {op : Arithmetic}
    (hu : f.combine g op = .ok u) : Frame.IsMade u

end

/-! ### What every operation keeps -/

theorem Series.isSorted_of_ofIndex? {name : String} {index : TimeIndex} {values : List Float}
    {s : Series} (hindex : index.IsSorted) (h : ofIndex? name index values = .ok s) :
    s.IsSorted := by
  unfold ofIndex? at h
  split at h
  · rename_i hlength
    obtain rfl := Except.ok.inj h
    have hstamps : (index.stamps.zip values).map (·.1) = index.stamps := List.map_fst_zip hlength.le
    exact (congrArg (List.Pairwise (· < ·)) hstamps).mpr hindex
  · cases h

theorem Series.isSorted_of_reduction {combination : String → List Series → Except FrameError Series}
    (h : combination ∈ [Reduction.sum, Reduction.priority, Reduction.least, Reduction.greatest,
      Reduction.mean]) {name : String} {inputs : List Series} {s : Series}
    (hs : combination name inputs = .ok s) : s.IsSorted := by
  simp only [List.mem_cons, List.not_mem_nil, or_false] at h
  rcases h with rfl | rfl | rfl | rfl | rfl
  · exact Reduction.isSorted_of_sum hs
  all_goals exact Reduction.isSorted_of_dropMissing hs

mutual

/-- **A series that can be made is in order.** -/
theorem Series.IsMade.isSorted {s : Series} : s.IsMade → s.IsSorted
  | .ofIndex hindex hs => Series.isSorted_of_ofIndex? hindex hs
  | .ofPoints hs => Series.isSorted_of_ofPoints? hs
  | .empty _ => .nil
  | .window hs w => Series.isSorted_window hs.isSorted w
  | .reindex _ htarget => Series.isSorted_map htarget _
  | .fill hs p => (congrArg TimeIndex.IsSorted (Series.index_fill _ p)).mpr hs.isSorted
  | .dropMissing hs => Series.isSorted_dropMissing hs.isSorted
  | .pruneLast hs _ => Series.isSorted_of_sublist hs.isSorted (List.take_sublist _ _)
  | .mapValues hs f => Series.isSorted_mapValues hs.isSorted f
  | .withScalar hs _ _ _ => Series.isSorted_mapValues hs.isSorted _
  | .combine hs hr hu => Series.isSorted_of_combine hs.isSorted hr.isSorted hu
  | .cumulate hs => Series.isSorted_cumulate hs.isSorted
  | .withName hs _ => hs.isSorted
  | .withOptions hs _ => hs.isSorted
  | .diff _ hnext => Series.isSorted_diff hnext.isSorted _
  | .staircase hs => Series.isSorted_of_ofPoints? hs
  | .reduction hcombination _ hs => Series.isSorted_of_reduction hcombination hs
  | .column hf hs => hf.isWellFormed.isSorted_of_mem_seriesList
      (hf.isWellFormed.column?_eq_some_iff.1 hs).1
  | .series hf hs => hf.isWellFormed.isSorted_of_mem_seriesList hs
  | .reduceRows hf name reduce => Frame.IsSorted.reduceRows hf.isWellFormed.sorted name reduce

/-- **A table that can be made is well formed.** -/
theorem Frame.IsMade.isWellFormed {f : Frame} : f.IsMade → f.IsWellFormed
  | .ofColumns hindex hf => Frame.isWellFormed_of_ofColumns? hindex hf
  | .empty => Frame.isWellFormed_empty
  | .ofSeries _ hf => Frame.isWellFormed_of_ofSeries? hf
  | .window hf w => hf.isWellFormed.window w
  | .dropIncomplete hf => hf.isWellFormed.dropIncomplete
  | .withScalar hf op x first => hf.isWellFormed.withScalar op x first
  | .withSeries hf _ hu => hf.isWellFormed.of_withSeries hu
  | .combine _ _ hu => Frame.isWellFormed_of_combine hu

end

/-! ### Tables of aligned series -/

/-- **Aligned series make a table**, which is made by operations itself. -/
theorem Reduction.exists_aligned {inputs : List Series} (h : ∀ s ∈ inputs, s.IsMade) (fills : Bool) :
    ∃ f, aligned inputs fills = .ok f ∧ f.IsMade := by
  obtain ⟨f, hf, -⟩ := aligned_ok inputs fills
  refine ⟨f, hf, .ofSeries (fun s hs => ?_) hf⟩
  obtain ⟨⟨input, position⟩, hinput, rfl⟩ := List.mem_map.1 hs
  have hcolumn := (h input (List.fst_mem_of_mem_zipIdx hinput)).reindex (sorted_unionOf inputs)
  refine Series.IsMade.withName ?_ _
  split
  · exact hcolumn.fill _
  · exact hcolumn

/-- **Series and tables stay well formed.** An index that stamps give is in order, whether they have to
be in order or are sorted. The stamps of a series that can be made are in order, and as many as its
values. A table that can be made has its stamps in order, columns as long as these, and different names
for them. So no operation on them reads a position out of bounds, and where points or rows are left out,
those that are kept stay at their stamps. The tables that are reduced to one series can be made too. -/
theorem isWellFormed_of_isMade :
    (∀ stamps, (TimeIndex.ofUnsorted stamps).IsSorted ∧
      ∀ index, TimeIndex.ofSorted? stamps = .ok index → index.IsSorted) ∧
    (∀ s : Series, s.IsMade → s.IsSorted ∧ s.index.size = s.values.length ∧ s.IsLaidOut) ∧
    (∀ f : Frame, f.IsMade → f.IsWellFormed ∧ f.IsLaidOut) ∧
    ∀ (inputs : List Series) (fills : Bool), (∀ s ∈ inputs, s.IsMade) →
      ∃ f, Reduction.aligned inputs fills = .ok f ∧ f.IsMade := by
  refine ⟨fun stamps => ⟨TimeIndex.isSorted_ofUnsorted stamps, fun index hindex => ?_⟩,
    fun s hs => ?_, fun f hf => ?_, fun inputs fills hinputs => ?_⟩
  · obtain ⟨hsorted, rfl⟩ := TimeIndex.ofSorted?_ok_iff.1 hindex
    exact hsorted
  · exact ⟨hs.isSorted, s.length_values.symm, Series.isLaidOut hs.isSorted⟩
  · exact ⟨hf.isWellFormed, hf.isWellFormed.isLaidOut⟩
  · exact Reduction.exists_aligned hinputs fills

end SeriesAlgebra
