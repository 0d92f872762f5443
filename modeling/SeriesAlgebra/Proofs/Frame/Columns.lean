import SeriesAlgebra.Frame.Basic

/-!
# The columns of tables

Columns over an index make a table if they are as long as it and have different names
(`Frame.columnFault?_eq_none_iff`). So series make a table if and only if they have different
names, and then it has a column for each of them (`Frame.ofSeries?_cases`).
-/

namespace SeriesAlgebra

theorem Series.length_reindex (s : Series) (index : TimeIndex) :
    (s.reindex index).values.length = index.size := by
  rw [values, reindex, withPoints, List.length_map, List.length_map, TimeIndex.size]

/-- The union of indexes has the stamps that one of them has. -/
theorem TimeIndex.mem_unionAll {indexes : List TimeIndex} {t : Stamp} :
    t ∈ (unionAll indexes).stamps ↔ ∃ index ∈ indexes, t ∈ index.stamps := by
  unfold unionAll ofUnsorted
  rw [mem_sortedSet, List.mem_flatMap]

namespace Frame

variable {size : Nat} {earlier : List String} {columns : List (String × List Float)}

/-! ### Faults -/

/-- **Nothing is wrong** with columns of one length and different names. -/
theorem columnFault?_eq_none_iff : columnFault? size earlier columns = none ↔
    (∀ c ∈ columns, c.2.length = size) ∧ (columns.map (·.1)).Nodup ∧
      ∀ c ∈ columns, c.1 ∉ earlier := by
  induction columns generalizing earlier with
  | nil => simp [columnFault?]
  | cons c rest ih =>
    rw [columnFault?]
    by_cases hsize : c.2.length = size
    · rw [if_neg (fun hne => hne hsize)]
      by_cases hearlier : c.1 ∈ earlier
      · simp [hearlier]
      · rw [if_neg hearlier, ih, List.map_cons, List.nodup_cons, List.forall_mem_cons,
          List.forall_mem_cons]
        constructor
        · rintro ⟨hrest, hnodup, hfresh⟩
          refine ⟨⟨hsize, hrest⟩, ⟨fun hmem => ?_, hnodup⟩, hearlier,
            fun d hd hmem => hfresh d hd (List.mem_cons_of_mem _ hmem)⟩
          obtain ⟨d, hd, heq⟩ := List.mem_map.1 hmem
          exact hfresh d hd (List.mem_cons.2 (Or.inl heq))
        · rintro ⟨⟨-, hrest⟩, ⟨hfirst, hnodup⟩, -, hfresh⟩
          refine ⟨hrest, hnodup, fun d hd hmem => ?_⟩
          rcases List.mem_cons.1 hmem with heq | hmem
          · exact hfirst (List.mem_map.2 ⟨d, hd, heq⟩)
          · exact hfresh d hd hmem
    · simp [hsize]

/-- What is wrong with columns of one length is the name of one. -/
theorem exists_duplicate {fault : FrameError} (hsize : ∀ c ∈ columns, c.2.length = size)
    (h : columnFault? size earlier columns = some fault) :
    ∃ name, fault = .duplicateColumn name := by
  induction columns generalizing earlier with
  | nil => cases h
  | cons c rest ih =>
    obtain ⟨hfirst, hrest⟩ := List.forall_mem_cons.1 hsize
    rw [columnFault?, if_neg (fun hne => hne hfirst)] at h
    split at h
    · exact ⟨c.1, (Option.some.inj h).symm⟩
    · exact ih hrest h

/-! ### Series -/

/-- The columns of series over an index. -/
def columnsOver (index : TimeIndex) (list : List Series) : List (String × List Float) :=
  list.map fun s => (s.name, (s.reindex index).values)

theorem map_fst_columnsOver (index : TimeIndex) (list : List Series) :
    (columnsOver index list).map (·.1) = list.map Series.name := by
  rw [columnsOver, List.map_map]
  rfl

/-- **Series make a table if they have different names**, and then each of them is a column of it,
over all their stamps. -/
theorem ofSeries?_cases (list : List Series) :
    (list.map Series.name).Nodup ∧
        (let index := TimeIndex.unionAll (list.map Series.index)
        ofSeries? list = .ok ⟨index, columnsOver index list⟩) ∨
      ¬ (list.map Series.name).Nodup ∧ ∃ name, ofSeries? list = .error (.duplicateColumn name) := by
  let union := TimeIndex.unionAll (list.map Series.index)
  change _ ∧ ofColumns? union (columnsOver union list) = _ ∨
    _ ∧ ∃ name, ofColumns? union (columnsOver union list) = _
  have hsize : ∀ c ∈ columnsOver union list, c.2.length = union.size := by
    intro c hc
    obtain ⟨s, -, rfl⟩ := List.mem_map.1 hc
    exact s.length_reindex union
  rw [ofColumns?, ← map_fst_columnsOver union]
  cases hfault : columnFault? union.size [] (columnsOver union list) with
  | none => exact Or.inl ⟨(columnFault?_eq_none_iff.1 hfault).2.1, rfl⟩
  | some fault =>
    obtain ⟨name, rfl⟩ := exists_duplicate hsize hfault
    refine Or.inr ⟨fun hnodup => ?_, name, rfl⟩
    cases hfault.symm.trans (columnFault?_eq_none_iff.2 ⟨hsize, hnodup, fun _ _ => List.not_mem_nil⟩)

/-! ### Columns by name -/

/-- Of columns with different names, a name finds its own. -/
theorem find?_of_nodup (h : (columns.map (·.1)).Nodup) {c : String × List Float}
    (hc : c ∈ columns) : columns.find? (·.1 = c.1) = some c := by
  induction columns with
  | nil => cases hc
  | cons d rest ih =>
    obtain ⟨hfresh, hrest⟩ := List.nodup_cons.1 h
    rcases List.mem_cons.1 hc with rfl | hc
    · exact List.find?_cons_of_pos (decide_eq_true rfl)
    · rw [List.find?_cons_of_neg, ih hrest hc]
      exact fun heq => hfresh (List.mem_map.2 ⟨c, hc, (of_decide_eq_true heq).symm⟩)

/-- **A column of a table of series** has the points of the series over the index of the table, which
has all stamps of the series. -/
theorem column?_of_ofSeries? {list : List Series} {f : Frame} (h : ofSeries? list = .ok f)
    {s : Series} (hs : s ∈ list) : ∃ c, f.column? s.name = some c ∧
      c.points = (s.reindex f.index).points ∧ ∀ t ∈ s.index.stamps, t ∈ f.index.stamps := by
  rcases ofSeries?_cases list with ⟨hnodup, hf⟩ | ⟨-, name, hf⟩
  · obtain rfl := Except.ok.inj (hf.symm.trans h)
    let index := TimeIndex.unionAll (list.map Series.index)
    rw [← map_fst_columnsOver index] at hnodup
    have hfind := find?_of_nodup hnodup (List.mem_map_of_mem hs)
    refine ⟨_, by rw [column?, hfind]; rfl, ?_, fun t ht =>
      TimeIndex.mem_unionAll.2 ⟨s.index, List.mem_map_of_mem hs, ht⟩⟩
    change index.stamps.zip (s.reindex index).values = (s.reindex index).points
    unfold Series.reindex Series.values Series.withPoints
    rw [List.map_map]
    exact List.map_prod_left_eq_zip.symm
  · cases hf.symm.trans h

theorem exists_column? {f : Frame} {name : String} (h : name ∈ f.columnNames) :
    ∃ s, f.column? name = some s := by
  obtain ⟨c, hc, rfl⟩ := List.mem_map.1 h
  cases hfind : f.columns.find? (·.1 = c.1) with
  | none => exact absurd rfl (of_decide_eq_false (List.find?_eq_none.1 hfind c hc |> Bool.eq_false_iff.2))
  | some d => exact ⟨f.columnSeries d, by rw [column?, hfind]; rfl⟩

end Frame

end SeriesAlgebra
