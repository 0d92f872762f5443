import SeriesAlgebra.Proofs.Frame.WellFormed
import SeriesAlgebra.Proofs.Order.Relabeling

/-!
# Arithmetic of tables

Arithmetic between a table and a series, or between two tables, is arithmetic of series in each
column. The columns are aligned one by one, and each of them gets the stamps of both operands
(`Series.combine_exists`), so the table they are joined to has these stamps too, and nothing is
realigned there (`Frame.exists_isArithmeticOf`).

With a series arithmetic always succeeds, and with another table it does just if both have columns of
the same names, in any order (`Frame.arithmetic_by_column`).
-/

namespace SeriesAlgebra

namespace Frame

variable {f g u : Frame} {list : List Series} {t : Stamp}

/-! ### Tables of series -/

theorem exists_ofSeries? (h : (list.map Series.name).Nodup) : ∃ u, ofSeries? list = .ok u := by
  rcases ofSeries?_cases list with ⟨-, hok⟩ | ⟨hnot, -⟩
  · exact ⟨_, hok⟩
  · exact absurd h hnot

section

variable (h : ofSeries? list = .ok u)
include h

theorem index_of_ofSeries? : u.index = .unionAll (list.map Series.index) := by
  rcases ofSeries?_cases list with ⟨-, hok⟩ | ⟨-, name, herror⟩
  · rw [← Except.ok.inj (hok.symm.trans h)]
  · cases herror.symm.trans h

theorem columnNames_of_ofSeries? : u.columnNames = list.map Series.name := by
  rcases ofSeries?_cases list with ⟨-, hok⟩ | ⟨-, name, herror⟩
  · rw [← Except.ok.inj (hok.symm.trans h), columnNames, map_fst_columnsOver]
  · cases herror.symm.trans h

theorem mem_index_of_ofSeries? : t ∈ u.index.stamps ↔ ∃ s ∈ list, t ∈ s.index.stamps := by
  simp [index_of_ofSeries? h, TimeIndex.mem_unionAll]

/-- The cell of a series is what it says at the stamp. -/
theorem cell?_of_ofSeries? {s : Series} (hs : s ∈ list) (ht : t ∈ u.index.stamps) :
    u.cell? s.name t = some (s.valueOn t) := by
  obtain ⟨c, hc, hpoints, -⟩ := column?_of_ofSeries? h hs
  rw [cell?, hc, Option.bind_some, Series.at?, hpoints]
  exact (Series.at?_map s u.index.stamps s.valueOn).trans (if_pos ht)

end

/-! ### Arithmetic -/

/-- **Whether a table is arithmetic of another one**, column by column: its columns have the names of
that table, in the same order, its stamps are those of the table and of another index, and every cell
has a given value. -/
structure IsArithmeticOf (u f : Frame) (other : TimeIndex) (value : String → Stamp → Float) :
    Prop where
  wellFormed : u.IsWellFormed
  names : u.columnNames = f.columnNames
  stamps : ∀ t, t ∈ u.index.stamps ↔ t ∈ f.index.stamps ∨ t ∈ other.stamps
  cells : ∀ name ∈ f.columnNames, ∀ t ∈ u.index.stamps, u.cell? name t = some (value name t)

/-- Whether a series is what arithmetic makes of a column. -/
structure IsColumnOf (other : TimeIndex) (value : String → Stamp → Float) (column s : Series) :
    Prop where
  name : s.name = column.name
  stamps : ∀ t, t ∈ s.index.stamps ↔ t ∈ column.index.stamps ∨ t ∈ other.stamps
  valueOn : ∀ t, s.valueOn t = value column.name t

section

variable {other : TimeIndex} {value : String → Stamp → Float} {column peer : Series}

/-- **Columns that are made one by one make a table.** -/
theorem exists_isArithmeticOf (hf : f.IsWellFormed) (hne : f.columns ≠ [])
    (h : List.Forall₂ (IsColumnOf other value) f.seriesList list) :
    ∃ u, ofSeries? list = .ok u ∧ u.IsArithmeticOf f other value := by
  have hnames : list.map Series.name = f.columnNames := by
    rw [← map_name_seriesList, ← List.forall₂_eq_eq_eq, List.forall₂_map_left_iff,
      List.forall₂_map_right_iff]
    exact h.flip.imp fun _ _ hcolumn => hcolumn.name
  have hnodup : (list.map Series.name).Nodup := hnames ▸ hf.nodup
  obtain ⟨u, hu⟩ := exists_ofSeries? hnodup
  have hstamps (s : Series) (hs : s ∈ list) (t : Stamp) :
      t ∈ s.index.stamps ↔ t ∈ f.index.stamps ∨ t ∈ other.stamps := by
    obtain ⟨column, hcolumn, hmade⟩ := Result.exists_of_mem_right h hs
    rw [hmade.stamps, hf.index_of_mem_seriesList hcolumn]
  refine ⟨u, hu, isWellFormed_of_ofSeries? hu, (columnNames_of_ofSeries? hu).trans hnames,
    fun t => ?_, fun name hname t ht => ?_⟩
  · rw [mem_index_of_ofSeries? hu]
    constructor
    · rintro ⟨s, hs, ht⟩
      exact (hstamps s hs t).1 ht
    · intro ht
      -- There is a column, and any column has all stamps.
      obtain ⟨c, hc⟩ := List.exists_mem_of_ne_nil _ hne
      obtain ⟨s, hs, -⟩ := Result.exists_of_mem_left h (List.mem_map_of_mem hc)
      exact ⟨s, hs, (hstamps s hs t).2 ht⟩
  · obtain ⟨column, hcolumn, rfl⟩ := exists_mem_seriesList hname
    obtain ⟨s, hs, hmade⟩ := Result.exists_of_mem_left h hcolumn
    rw [← hmade.name, cell?_of_ofSeries? hu hs ht, hmade.valueOn, hmade.name]

/-- What has the stamps and values of a column becomes the column under its name. -/
theorem exists_isColumnOf {made : Except FrameError Series} (h : ∃ u, made = .ok u ∧
      (∀ t, t ∈ u.index.stamps ↔ t ∈ column.index.stamps ∨ t ∈ other.stamps) ∧
      ∀ t, u.valueOn t = value column.name t) :
    ∃ s, made.map (·.withName column.name) = .ok s ∧ IsColumnOf other value column s := by
  obtain ⟨u, rfl, hstamps, hvalues⟩ := h
  exact ⟨u.withName column.name, rfl, rfl, hstamps, hvalues⟩

/-- **Steps that make a column of each one** make a table, if any columns are joined to one. -/
theorem exists_of_columns (hf : f.IsWellFormed) (hne : f.columns ≠ [])
    {step : Series → Except FrameError Series} {join : List Series → Except FrameError Frame}
    (hjoin : ∀ columns, columns ≠ [] → join columns = ofSeries? columns)
    (h : ∀ column ∈ f.seriesList, ∃ s, step column = .ok s ∧ IsColumnOf other value column s) :
    ∃ u, (f.seriesList.mapM step >>= join) = .ok u ∧ u.IsArithmeticOf f other value := by
  obtain ⟨columns, hcolumns⟩ := Result.exists_mapM fun column hcolumn =>
    (h column hcolumn).imp fun _ hs => hs.1
  have hmade : List.Forall₂ (IsColumnOf other value) f.seriesList columns := by
    refine Result.forall₂_imp_of_mem (Result.forall₂_of_mapM hcolumns) fun column hcolumn s hs => ?_
    obtain ⟨s', hs', hmade⟩ := h column hcolumn
    rwa [Except.ok.inj (hs.symm.trans hs')]
  have hfull : columns ≠ [] := by
    rintro rfl
    exact hne (List.map_eq_nil_iff.1 (List.forall₂_nil_right_iff.1 hmade))
  obtain ⟨u, hu, harithmetic⟩ := exists_isArithmeticOf hf hne hmade
  refine ⟨u, ?_, harithmetic⟩
  rw [hcolumns]
  exact (hjoin columns hfull).trans hu

end

/-- What arithmetic with a series gives in a cell, in the order asked for. -/
def cellWith (f : Frame) (s : Series) (op : Arithmetic) (first : Bool) (name : String) (t : Stamp) :
    Float :=
  if first then Series.applyBoth op (s.at? t) (f.cell? name t)
  else Series.applyBoth op (f.cell? name t) (s.at? t)

/-- **Arithmetic with a series succeeds.** -/
theorem exists_withSeries (hf : f.IsWellFormed) (hne : f.columns ≠ []) {s : Series}
    (hs : s.IsSorted) (op : Arithmetic) (first : Bool) :
    ∃ u, f.withSeries s op first = .ok u ∧ u.IsArithmeticOf f s.index (f.cellWith s op first) := by
  unfold withSeries
  refine exists_of_columns hf hne (fun columns hfull => if_neg (by simpa using hfull))
    fun column hcolumn => exists_isColumnOf ?_
  have hsorted := hf.isSorted_of_mem_seriesList hcolumn
  have hcell := hf.cell?_of_mem_seriesList hcolumn
  cases first with
  | true =>
    obtain ⟨u, hu, -, hstamps, hvalues⟩ := Series.combine_exists hs hsorted op
    refine ⟨u, hu, fun t => (hstamps t).trans or_comm, fun t => ?_⟩
    rw [hvalues, cellWith, if_pos rfl, hcell]
  | false =>
    obtain ⟨u, hu, -, hstamps, hvalues⟩ := Series.combine_exists hsorted hs op
    refine ⟨u, hu, hstamps, fun t => ?_⟩
    rw [hvalues, cellWith, if_neg Bool.false_ne_true, hcell]

/-! ### Two tables -/

theorem sortedNames_eq_iff : f.sortedNames = g.sortedNames ↔
    ∀ name, name ∈ f.columnNames ↔ name ∈ g.columnNames := by
  refine ⟨fun h name => ?_, sortedSet_congr⟩
  unfold sortedNames at h
  rw [← mem_sortedSet, h, mem_sortedSet]

theorem combine_of_ne (h : f.sortedNames ≠ g.sortedNames) (op : Arithmetic) :
    f.combine g op = .error (.columnMismatch f.sortedNames g.sortedNames) := by
  unfold combine
  dsimp only
  rw [if_pos h]
  rfl

/-- What arithmetic of two tables gives in a cell. -/
def cellOfBoth (f g : Frame) (op : Arithmetic) (name : String) (t : Stamp) : Float :=
  Series.applyBoth op (f.cell? name t) (g.cell? name t)

/-- **Arithmetic of two tables with the same column names succeeds.** -/
theorem exists_combine (hf : f.IsWellFormed) (hne : f.columns ≠ []) (hg : g.IsWellFormed)
    (hnames : ∀ name, name ∈ f.columnNames ↔ name ∈ g.columnNames) (op : Arithmetic) :
    ∃ u, f.combine g op = .ok u ∧ u.IsArithmeticOf f g.index (f.cellOfBoth g op) := by
  unfold combine
  dsimp only
  rw [if_neg (not_not.2 (sortedNames_eq_iff.2 hnames))]
  refine exists_of_columns hf hne (fun _ _ => rfl) fun column hcolumn => ?_
  have hname : column.name ∈ g.columnNames :=
    (hnames _).1 (map_name_seriesList f ▸ List.mem_map_of_mem hcolumn)
  obtain ⟨peer, hmem, hpeer⟩ := exists_mem_seriesList hname
  rw [hg.column?_eq_some_iff.2 ⟨hmem, hpeer⟩, ← hg.index_of_mem_seriesList hmem]
  obtain ⟨u, hu, -, hstamps, hvalues⟩ := Series.combine_exists
    (hf.isSorted_of_mem_seriesList hcolumn) (hg.isSorted_of_mem_seriesList hmem) op
  refine exists_isColumnOf ⟨u, hu, hstamps, fun t => ?_⟩
  rw [hvalues, cellOfBoth, hf.cell?_of_mem_seriesList hcolumn, ← hpeer,
    hg.cell?_of_mem_seriesList hmem]

/-- **Arithmetic of tables goes column by column**, for a table that has one. With a series it
succeeds, whichever operand comes first. With another table it succeeds just if both have columns of
the same names. The result has the columns of the table in their order and the stamps of both operands,
and in each column, at each stamp, what the operation makes of the values of the operands there, or a
missing value if one of them has none. -/
theorem arithmetic_by_column (hf : f.IsWellFormed) (hne : f.columns ≠ []) (op : Arithmetic) :
    (∀ (s : Series) (first : Bool), s.IsSorted → ∃ u, f.withSeries s op first = .ok u ∧
      u.IsArithmeticOf f s.index fun name t =>
        if first then Series.applyBoth op (s.at? t) (f.cell? name t)
        else Series.applyBoth op (f.cell? name t) (s.at? t)) ∧
    ∀ g : Frame, g.IsWellFormed →
      ((∃ u, f.combine g op = .ok u) ↔ ∀ name, name ∈ f.columnNames ↔ name ∈ g.columnNames) ∧
      ∀ u, f.combine g op = .ok u → u.IsArithmeticOf f g.index fun name t =>
        Series.applyBoth op (f.cell? name t) (g.cell? name t) := by
  have hsame (g : Frame) (u : Frame) (hu : f.combine g op = .ok u) :
      ∀ name, name ∈ f.columnNames ↔ name ∈ g.columnNames := by
    refine sortedNames_eq_iff.1 (by_contra fun hdiffer => ?_)
    cases (combine_of_ne hdiffer op).symm.trans hu
  refine ⟨fun s first hs => exists_withSeries hf hne hs op first, fun g hg => ⟨⟨?_, ?_⟩, ?_⟩⟩
  · rintro ⟨u, hu⟩
    exact hsame g u hu
  · intro hnames
    exact (exists_combine hf hne hg hnames op).imp fun _ hu => hu.1
  · intro u hu
    obtain ⟨u', hu', harithmetic⟩ := exists_combine hf hne hg (hsame g u hu) op
    rwa [Except.ok.inj (hu.symm.trans hu')]

/-- The midnights that a table is about. -/
def tableDay (n : Nat) : Stamp := .within (1704067200 + 86400 * n) 0

/-- Two columns over two days. -/
def plannedTable : Frame :=
  ⟨⟨[tableDay 0, tableDay 1]⟩, [("load", [5.0, 7.0]), ("price", [1.0, 2.0])]⟩

/-- The same columns in another order, over other days. -/
def correctedTable : Frame :=
  ⟨⟨[tableDay 1, tableDay 2]⟩, [("price", [0.5, 3.0]), ("load", [4.0, 6.0])]⟩

theorem isWellFormed_plannedTable : plannedTable.IsWellFormed := by
  constructor
  · unfold TimeIndex.IsSorted; decide +kernel
  · decide
  · decide

theorem isWellFormed_correctedTable : correctedTable.IsWellFormed := by
  constructor
  · unfold TimeIndex.IsSorted; decide +kernel
  · decide
  · decide

theorem arithmetic_by_column_plannedTable :
    plannedTable.IsWellFormed ∧ plannedTable.columns ≠ [] ∧
    ∃ u, plannedTable.combine correctedTable .sub = .ok u ∧ u.columnNames = ["load", "price"] ∧
      u.cell? "price" (tableDay 1) = some (2.0 - 0.5) ∧
      u.cell? "load" (tableDay 2) = some missing := by
  have hne : plannedTable.columns ≠ [] := by decide
  obtain ⟨-, htables⟩ := arithmetic_by_column isWellFormed_plannedTable hne .sub
  obtain ⟨hiff, hresult⟩ := htables correctedTable isWellFormed_correctedTable
  obtain ⟨u, hu⟩ := hiff.2 fun name => by simp [columnNames, plannedTable, correctedTable, or_comm]
  have harithmetic := hresult u hu
  have hfirst : tableDay 1 ∈ u.index.stamps := (harithmetic.stamps _).2 (Or.inl (by decide +kernel))
  have hlast : tableDay 2 ∈ u.index.stamps := (harithmetic.stamps _).2 (Or.inr (by decide +kernel))
  refine ⟨isWellFormed_plannedTable, hne, u, hu, harithmetic.names, ?_, ?_⟩
  · exact harithmetic.cells "price" (by decide) _ hfirst
  · exact harithmetic.cells "load" (by decide) _ hlast

end Frame

end SeriesAlgebra
