import SeriesAlgebra.Proofs.Evaluation.Ordered

/-!
# Well-formed tables

A table is **well formed** if its index is in order, its columns are as long as the index, and no two
of them have one name (`Frame.IsWellFormed`). Only such tables are made of columns over an index in
order, and any table that is made of series is one. Cutting a table, dropping rows and arithmetic
keep it well formed.

In a well-formed table a column and the series of that name have the same stamps and values
(`Frame.IsWellFormed.index_columnSeries`, `Frame.IsWellFormed.column?_eq_some_iff`), so that what it
holds is told by its cells (`Frame.cell?`).
-/

namespace SeriesAlgebra

theorem TimeIndex.IsSorted.slice {i : TimeIndex} (h : i.IsSorted) (r : PositionRange) :
    (i.slice r).IsSorted :=
  h.sublist ((List.drop_sublist _ _).trans (List.take_sublist _ _))

theorem length_slice_congr {α β : Type} (r : PositionRange) {xs : List α} {ys : List β}
    (h : xs.length = ys.length) : (slice r xs).length = (slice r ys).length := by
  unfold slice
  rw [List.length_drop, List.length_drop, List.length_take, List.length_take, h]

/-- A series made of as many values as stamps has these values. -/
theorem Series.values_zip {name : String} {stamps : List Stamp} {values : List Float}
    (h : values.length = stamps.length) : (ofPoints name (stamps.zip values)).values = values :=
  List.map_snd_zip h.le

namespace Frame

/-- **Whether a table is well formed.** -/
structure IsWellFormed (f : Frame) : Prop where
  sorted : f.index.IsSorted
  lengths : ∀ c ∈ f.columns, c.2.length = f.index.size
  nodup : f.columnNames.Nodup

/-- What a table has in the column of a name at a stamp. -/
def cell? (f : Frame) (name : String) (t : Stamp) : Option Float :=
  (f.column? name).bind fun column => column.at? t

variable {f u : Frame} {index : TimeIndex} {columns : List (String × List Float)}

/-! ### Making tables -/

theorem isWellFormed_empty : empty.IsWellFormed := ⟨.nil, nofun, .nil⟩

/-- **Columns make a table** if they are as long as the index and have different names. -/
theorem ofColumns?_eq_ok_iff : ofColumns? index columns = .ok f ↔
    (∀ c ∈ columns, c.2.length = index.size) ∧ (columns.map (·.1)).Nodup ∧
      f = ⟨index, columns⟩ := by
  have hnone : columnFault? index.size [] columns = none ↔ _ := columnFault?_eq_none_iff
  unfold ofColumns?
  cases hfault : columnFault? index.size [] columns with
  | none =>
    obtain ⟨hlengths, hnodup, -⟩ := hnone.1 hfault
    exact ⟨fun h => ⟨hlengths, hnodup, (Except.ok.inj h).symm⟩, fun h => congrArg Except.ok h.2.2.symm⟩
  | some fault =>
    refine iff_of_false (fun h => by cases h) fun ⟨hlengths, hnodup, _⟩ => ?_
    cases hfault.symm.trans (hnone.2 ⟨hlengths, hnodup, fun _ _ => List.not_mem_nil⟩)

theorem isWellFormed_of_ofColumns? (hindex : index.IsSorted)
    (h : ofColumns? index columns = .ok f) : f.IsWellFormed := by
  obtain ⟨hlengths, hnodup, rfl⟩ := ofColumns?_eq_ok_iff.1 h
  exact ⟨hindex, hlengths, hnodup⟩

/-- **A table that is made of series is well formed**, whatever the series. -/
theorem isWellFormed_of_ofSeries? {list : List Series} (h : ofSeries? list = .ok f) :
    f.IsWellFormed :=
  isWellFormed_of_ofColumns? (Reduction.sorted_unionOf list) h

/-! ### Operations -/

/-- A table is still well formed after all columns became as long as a new index in order. -/
theorem IsWellFormed.mapColumns (h : f.IsWellFormed) (hindex : index.IsSorted)
    {g : List Float → List Float}
    (hg : ∀ xs, xs.length = f.index.size → (g xs).length = index.size) :
    (f.mapColumns index g).IsWellFormed := by
  refine ⟨hindex, fun c hc => ?_, ?_⟩
  · obtain ⟨d, hd, rfl⟩ := List.mem_map.1 hc
    exact hg _ (h.lengths d hd)
  · have hnames : (f.mapColumns index g).columnNames = f.columnNames := by
      unfold columnNames Frame.mapColumns
      rw [List.map_map]
      rfl
    exact hnames ▸ h.nodup

theorem IsWellFormed.window (h : f.IsWellFormed) (w : Window) : (f.window w).IsWellFormed :=
  h.mapColumns (h.sorted.slice _) fun _ hxs => length_slice_congr _ hxs

@[simp] theorem length_rowsOf (count : Nat) (columns : List (List Float)) :
    (rowsOf count columns).length = count := by
  induction count generalizing columns with
  | zero => rfl
  | succ count ih => rw [rowsOf, List.length_cons, ih]

theorem length_keepComplete {α : Type} {rows : List (List Float)} {xs : List α}
    (h : xs.length = rows.length) :
    (keepComplete rows xs).length = (rows.filter isComplete).length := by
  unfold keepComplete
  conv_rhs => rw [← List.map_fst_zip h.ge, List.filter_map]
  rw [List.length_map, List.length_map]
  rfl

theorem IsWellFormed.dropIncomplete (h : f.IsWellFormed) : f.dropIncomplete.IsWellFormed := by
  refine h.mapColumns (h.sorted.sublist (sublist_keepComplete f.rows _)) fun xs hxs => ?_
  have hrows : f.rows.length = f.index.size := length_rowsOf _ _
  have hstamps : (keepComplete f.rows f.index.stamps).length = _ := length_keepComplete hrows.symm
  rw [length_keepComplete (hxs.trans hrows.symm)]
  exact hstamps.symm

theorem IsWellFormed.withScalar (h : f.IsWellFormed) (op : Arithmetic) (x : Float) (first : Bool) :
    (f.withScalar op x first).IsWellFormed :=
  h.mapColumns h.sorted fun _ hxs => (List.length_map _).trans hxs

/-- Arithmetic of a table and a series, if it succeeds, gives a table of series or the table. -/
theorem IsWellFormed.of_withSeries (h : f.IsWellFormed) {s : Series} {op : Arithmetic}
    {first : Bool} (hu : f.withSeries s op first = .ok u) : u.IsWellFormed := by
  obtain ⟨columns, -, hu⟩ := Result.bind_ok hu
  split at hu
  · rwa [← Except.ok.inj hu]
  · exact isWellFormed_of_ofSeries? hu

/-- Arithmetic of two tables, if it succeeds, gives a table of series. -/
theorem isWellFormed_of_combine {g : Frame} {op : Arithmetic} (hu : f.combine g op = .ok u) :
    u.IsWellFormed := by
  unfold combine at hu
  dsimp only at hu
  split at hu
  · cases hu
  · obtain ⟨columns, -, hu⟩ := Result.bind_ok hu
    exact isWellFormed_of_ofSeries? hu

/-! ### Columns as series -/

section

variable (h : f.IsWellFormed)
include h

theorem IsWellFormed.index_columnSeries {c : String × List Float} (hc : c ∈ f.columns) :
    (f.columnSeries c).index = f.index :=
  congrArg TimeIndex.mk (List.map_fst_zip (h.lengths c hc).ge)

theorem IsWellFormed.values_columnSeries {c : String × List Float} (hc : c ∈ f.columns) :
    (f.columnSeries c).values = c.2 := Series.values_zip (h.lengths c hc)

theorem IsWellFormed.index_of_mem_seriesList {s : Series} (hs : s ∈ f.seriesList) :
    s.index = f.index := by
  obtain ⟨c, hc, rfl⟩ := List.mem_map.1 hs
  exact h.index_columnSeries hc

theorem IsWellFormed.isSorted_of_mem_seriesList {s : Series} (hs : s ∈ f.seriesList) :
    s.IsSorted := by
  unfold Series.IsSorted
  rw [h.index_of_mem_seriesList hs]
  exact h.sorted

/-- **A name finds the series of that name.** -/
theorem IsWellFormed.column?_eq_some_iff {name : String} {s : Series} :
    f.column? name = some s ↔ s ∈ f.seriesList ∧ s.name = name := by
  unfold column? seriesList
  constructor
  · intro hs
    obtain ⟨c, hc, rfl⟩ := Option.map_eq_some_iff.1 hs
    have hname : c.1 = name := by simpa using List.find?_some hc
    exact ⟨List.mem_map_of_mem (List.mem_of_find?_eq_some hc), hname⟩
  · rintro ⟨hs, rfl⟩
    obtain ⟨c, hc, rfl⟩ := List.mem_map.1 hs
    exact congrArg (Option.map f.columnSeries) (find?_of_nodup h.nodup hc)

theorem IsWellFormed.cell?_of_mem_seriesList {s : Series} (hs : s ∈ f.seriesList) (t : Stamp) :
    f.cell? s.name t = s.at? t := by
  rw [cell?, h.column?_eq_some_iff.2 ⟨hs, rfl⟩]
  rfl

end

theorem map_name_seriesList (f : Frame) : f.seriesList.map Series.name = f.columnNames := by
  rw [seriesList, List.map_map]
  rfl

theorem exists_mem_seriesList {name : String} (hname : name ∈ f.columnNames) :
    ∃ s ∈ f.seriesList, s.name = name := by
  rw [← map_name_seriesList] at hname
  exact List.mem_map.1 hname

end Frame

end SeriesAlgebra
