import SeriesAlgebra.Proofs.Frame.WellFormed
import SeriesAlgebra.Proofs.Series.Layout

/-!
# The rows of tables

A row of a table is what the columns have at one position. Of a well-formed table every row can be
read (`Frame.row?_eq`), so cutting a table, dropping rows and reducing rows stay within the bounds of
every column (`Frame.IsWellFormed.isLaidOut`).

Rows that are dropped take their stamps with them: what is left in a cell was there, at the same stamp,
and no value of its row is missing (`Frame.cell?_dropIncomplete`).
-/

namespace SeriesAlgebra

namespace Frame

/-! ### Operations that check positions -/

/-- The values at a position of every column. -/
def row? (f : Frame) (position : Nat) : Option (List Float) := f.columns.mapM fun c => c.2[position]?

/-- The values of all rows. -/
def rows? (f : Frame) : Option (List (List Float)) := (List.range f.index.size).mapM f.row?

/-- Every column changed, if it can be. -/
def mapColumns? (f : Frame) (index : TimeIndex) (g : List Float → Option (List Float)) :
    Option Frame := do
  return ⟨index, ← f.columns.mapM fun c => return (c.1, ← g c.2)⟩

/-- The rows in a window. -/
def window? (f : Frame) (w : Window) : Option Frame := do
  let range := f.index.range w
  f.mapColumns? ⟨← Layout.slice? range f.index.stamps⟩ (Layout.slice? range)

/-- The rows without a missing value, whose stamps are sorted anew and without repetition. -/
def dropIncomplete? (f : Frame) : Option Frame := do
  let positions := keepComplete (← f.rows?) (List.range f.index.size)
  let stamps ← positions.mapM (f.index.stamps[·]?)
  f.mapColumns? (.ofUnsorted stamps) fun values => positions.mapM (values[·]?)

/-- The index with the values that the rows are reduced to. -/
def reduceRows? (f : Frame) (reduce : List Float → Float) : Option Layout := do
  return ⟨f.index, (← f.rows?).map reduce⟩

/-- Whether no value at a stamp is missing. -/
def IsCompleteAt (f : Frame) (t : Stamp) : Prop :=
  ∀ name x, f.cell? name t = some x → x.isNaN = false

/-- **Whether operations on a table stay within the bounds of its columns** and give what they are
meant to give: a column is the series of its name, and a row that is kept stays at its stamp. -/
structure IsLaidOut (f : Frame) : Prop where
  column : ∀ c ∈ f.columns, (f.columnSeries c).layout = ⟨f.index, c.2⟩
  window : ∀ w, f.window? w = some (f.window w)
  dropIncomplete : f.dropIncomplete? = some f.dropIncomplete
  reduceRows : ∀ name reduce, f.reduceRows? reduce = some (f.reduceRows name reduce).layout
  cell?_dropIncomplete : ∀ name t x, f.dropIncomplete.cell? name t = some x ↔
    f.cell? name t = some x ∧ f.IsCompleteAt t

/-! ### Reading rows -/

theorem getElem?_rowsOf {count position : Nat} (h : position < count) (columns : List (List Float)) :
    (rowsOf count columns)[position]? =
      some (columns.map fun values => values[position]?.getD missing) := by
  induction count generalizing position columns with
  | zero => exact absurd h (Nat.not_lt_zero position)
  | succ count ih =>
    cases position with
    | zero =>
      simp [rowsOf, heads, List.headD_eq_head?_getD, List.head?_eq_getElem?]
    | succ position =>
      simp [rowsOf, ih (Nat.lt_of_succ_lt_succ h)]

variable {f : Frame}

@[simp] theorem length_rows (f : Frame) : f.rows.length = f.index.size := length_rowsOf _ _

section

variable (h : f.IsWellFormed)
include h

/-- **Every row can be read.** -/
theorem IsWellFormed.row?_eq {position : Nat} (hp : position < f.index.size) :
    f.row? position = f.rows[position]? := by
  rw [rows, getElem?_rowsOf hp, row?, Result.mapM_eq_some_iff, List.map_map, List.map_map]
  refine List.map_congr_left fun c hc => ?_
  have hlt : position < c.2.length := h.lengths c hc ▸ hp
  simp [hlt]

theorem IsWellFormed.rows?_eq : f.rows? = some f.rows := by
  have hall := Result.mapM_eq_some_iff.1 (Result.mapM_getElem?_range f.rows)
  rw [length_rows] at hall
  refine Result.mapM_eq_some_iff.2 (Eq.trans ?_ hall)
  exact List.map_congr_left fun position hp => h.row?_eq (List.mem_range.1 hp)

end

/-! ### Keeping rows -/

theorem map_keepComplete {α β : Type} (rows : List (List Float)) (g : α → β) (xs : List α) :
    (keepComplete rows xs).map g = keepComplete rows (xs.map g) := by
  unfold keepComplete
  rw [List.zip_map_right, List.filter_map, List.map_map, List.map_map]
  rfl

/-- The elements at the positions of complete rows are those that are kept. -/
theorem mapM_keepComplete {α : Type} (rows : List (List Float)) (xs : List α) :
    (keepComplete rows (List.range xs.length)).mapM (xs[·]?) = some (keepComplete rows xs) := by
  rw [Result.mapM_eq_some_iff, map_keepComplete, map_keepComplete,
    Result.mapM_eq_some_iff.1 (Result.mapM_getElem?_range xs)]

theorem mapColumns?_eq {index : TimeIndex} {g : List Float → Option (List Float)}
    {g' : List Float → List Float} (hg : ∀ c ∈ f.columns, g c.2 = some (g' c.2)) :
    f.mapColumns? index g = some (f.mapColumns index g') := by
  have hcolumns : (f.columns.mapM fun c => return (c.1, ← g c.2)) =
      some (f.columns.map fun c => (c.1, g' c.2)) := by
    rw [Result.mapM_eq_some_iff, List.map_map]
    refine List.map_congr_left fun c hc => ?_
    simp [hg c hc]
  unfold mapColumns?
  rw [hcolumns]
  rfl

section

variable (h : f.IsWellFormed)
include h

theorem IsWellFormed.window?_eq (w : Window) : f.window? w = some (f.window w) := by
  have hrange := f.index.range_within w
  have hstamps : Layout.slice? (f.index.range w) f.index.stamps =
      some (slice (f.index.range w) f.index.stamps) := if_pos hrange
  unfold window?
  dsimp only
  rw [hstamps]
  exact mapColumns?_eq fun c hc => if_pos ⟨hrange.1, (h.lengths c hc).symm ▸ hrange.2⟩

/-- **Dropping rows reads within bounds** and drops as many stamps as values. -/
theorem IsWellFormed.dropIncomplete?_eq : f.dropIncomplete? = some f.dropIncomplete := by
  have hstamps : (keepComplete f.rows (List.range f.index.size)).mapM (f.index.stamps[·]?) =
      some (keepComplete f.rows f.index.stamps) := mapM_keepComplete _ _
  have hsorted : TimeIndex.ofUnsorted (keepComplete f.rows f.index.stamps) =
      ⟨keepComplete f.rows f.index.stamps⟩ :=
    TimeIndex.IsSorted.ofUnsorted (h.sorted.sublist (sublist_keepComplete f.rows _))
  unfold dropIncomplete?
  simp only [h.rows?_eq, Option.bind_eq_bind, Option.bind_some, hstamps, hsorted]
  refine mapColumns?_eq fun c hc => ?_
  rw [← h.lengths c hc]
  exact mapM_keepComplete _ _

theorem IsWellFormed.reduceRows?_eq (name : String) (reduce : List Float → Float) :
    f.reduceRows? reduce = some (f.reduceRows name reduce).layout := by
  have hlength : f.index.stamps.length = f.rows.length := f.length_rows.symm
  have hindex : (f.reduceRows name reduce).index = f.index := by
    refine congrArg TimeIndex.mk (Eq.trans ?_ (List.map_fst_zip hlength.le))
    rw [reduceRows, Series.ofPoints, List.map_map]
    rfl
  have hvalues : (f.reduceRows name reduce).values = f.rows.map reduce := by
    rw [← List.map_snd_zip hlength.ge, reduceRows, Series.values, Series.ofPoints, List.map_map,
      List.map_map]
    rfl
  unfold reduceRows?
  rw [h.rows?_eq, Series.layout, hindex, hvalues]
  rfl

end

/-! ### Cells -/

/-- What is kept stood beside a complete row. -/
theorem mem_keepComplete {α : Type} {rows : List (List Float)} {xs : List α} {a : α} :
    a ∈ keepComplete rows xs ↔ ∃ (position : Nat) (row : List Float),
      rows[position]? = some row ∧ xs[position]? = some a ∧ isComplete row = true := by
  have hbeside (row : List Float) : (row, a) ∈ (rows.zip xs).filter (fun p => isComplete p.1) ↔
      ∃ position : Nat, rows[position]? = some row ∧ xs[position]? = some a ∧
        isComplete row = true := by
    rw [List.mem_filter, List.mem_iff_getElem?, ← exists_and_right]
    simp only [List.getElem?_zip_eq_some, and_assoc]
  unfold keepComplete
  rw [List.mem_map]
  constructor
  · rintro ⟨⟨row, a⟩, hrow, rfl⟩
    obtain ⟨position, hposition⟩ := (hbeside row).1 hrow
    exact ⟨position, row, hposition⟩
  · rintro ⟨position, row, hposition⟩
    exact ⟨(row, a), (hbeside row).2 ⟨position, hposition⟩, rfl⟩

theorem zip_keepComplete {α β : Type} (rows : List (List Float)) {xs : List α} {ys : List β}
    (h : xs.length = ys.length) :
    (keepComplete rows xs).zip (keepComplete rows ys) = keepComplete rows (xs.zip ys) := by
  have hxs := map_keepComplete rows Prod.fst (xs.zip ys)
  have hys := map_keepComplete rows Prod.snd (xs.zip ys)
  rw [List.map_fst_zip h.le] at hxs
  rw [List.map_snd_zip h.ge] at hys
  rw [← hxs, ← hys, List.zip_map', List.map_id']

section

variable (h : f.IsWellFormed)
include h

/-- **A cell is found beside its stamp** in the column of its name. -/
theorem IsWellFormed.cell?_eq_some_iff {name : String} {t : Stamp} {x : Float} :
    f.cell? name t = some x ↔
      ∃ values, (name, values) ∈ f.columns ∧ (t, x) ∈ f.index.stamps.zip values := by
  have hpoint (c : String × List Float) (hc : c ∈ f.columns) :
      (f.columnSeries c).at? t = some x ↔ (t, x) ∈ f.index.stamps.zip c.2 :=
    Series.at?_eq_some_iff (h.isSorted_of_mem_seriesList (List.mem_map_of_mem hc))
  rw [cell?, Option.bind_eq_some_iff]
  constructor
  · rintro ⟨s, hs, hx⟩
    obtain ⟨hmem, rfl⟩ := h.column?_eq_some_iff.1 hs
    obtain ⟨c, hc, rfl⟩ := List.mem_map.1 hmem
    exact ⟨c.2, hc, (hpoint c hc).1 hx⟩
  · rintro ⟨values, hc, hx⟩
    exact ⟨_, h.column?_eq_some_iff.2 ⟨List.mem_map_of_mem hc, rfl⟩, (hpoint _ hc).2 hx⟩

/-- **A row is complete** if no cell at its stamp misses its value. -/
theorem IsWellFormed.isCompleteAt_iff {position : Nat} {t : Stamp}
    (ht : f.index.stamps[position]? = some t) {row : List Float}
    (hrow : f.rows[position]? = some row) : f.IsCompleteAt t ↔ isComplete row = true := by
  obtain ⟨hp, -⟩ := List.getElem?_eq_some_iff.1 ht
  have hrow' := getElem?_rowsOf hp (f.columns.map (·.2))
  obtain rfl := Option.some.inj (hrow'.symm.trans hrow)
  rw [isComplete, List.all_eq_true]
  simp only [List.forall_mem_map, Bool.not_eq_true']
  constructor
  · intro hcomplete c hc
    have hx := List.getElem?_eq_getElem (l := c.2) (i := position) (h.lengths c hc ▸ hp)
    rw [hx, Option.getD_some]
    refine hcomplete c.1 _ (h.cell?_eq_some_iff.2 ⟨c.2, hc, List.mem_iff_getElem?.2 ⟨position, ?_⟩⟩)
    exact List.getElem?_zip_eq_some.2 ⟨ht, hx⟩
  · intro hcomplete name x hx
    obtain ⟨values, hvalues, hmem⟩ := h.cell?_eq_some_iff.1 hx
    obtain ⟨other, hother⟩ := List.getElem?_of_mem hmem
    obtain ⟨hother, hx⟩ := List.getElem?_zip_eq_some.1 hother
    -- The stamp stands at one position only.
    have hnodup : f.index.stamps.Nodup := h.sorted.imp OrderedMap.ne_of_lt
    obtain rfl := (List.getElem?_inj hp hnodup).1 (ht.trans hother.symm)
    have hpresent := hcomplete _ hvalues
    rwa [hx, Option.getD_some] at hpresent

theorem IsWellFormed.cell?_dropIncomplete {name : String} {t : Stamp} {x : Float} :
    f.dropIncomplete.cell? name t = some x ↔ f.cell? name t = some x ∧ f.IsCompleteAt t := by
  have hkept (values : List Float) (hvalues : (name, values) ∈ f.columns) :
      (t, x) ∈ (keepComplete f.rows f.index.stamps).zip (keepComplete f.rows values) ↔
        (t, x) ∈ f.index.stamps.zip values ∧ f.IsCompleteAt t := by
    rw [zip_keepComplete f.rows (h.lengths _ hvalues).symm, mem_keepComplete]
    constructor
    · rintro ⟨position, row, hrow, hpoint, hcomplete⟩
      obtain ⟨ht, -⟩ := List.getElem?_zip_eq_some.1 hpoint
      exact ⟨List.mem_of_getElem? hpoint, (h.isCompleteAt_iff ht hrow).2 hcomplete⟩
    · rintro ⟨hmem, hcomplete⟩
      obtain ⟨position, hpoint⟩ := List.getElem?_of_mem hmem
      obtain ⟨ht, -⟩ := List.getElem?_zip_eq_some.1 hpoint
      obtain ⟨hp, -⟩ := List.getElem?_eq_some_iff.1 ht
      have hrow := List.getElem?_eq_getElem (f.length_rows.symm ▸ hp : position < f.rows.length)
      exact ⟨position, _, hrow, hpoint, (h.isCompleteAt_iff ht hrow).1 hcomplete⟩
  rw [h.dropIncomplete.cell?_eq_some_iff, h.cell?_eq_some_iff]
  constructor
  · rintro ⟨kept, hcolumn, hmem⟩
    obtain ⟨⟨name, values⟩, hvalues, heq⟩ := List.mem_map.1 hcolumn
    obtain ⟨rfl, rfl⟩ := Prod.mk.inj heq
    obtain ⟨hmem, hcomplete⟩ := (hkept values hvalues).1 hmem
    exact ⟨⟨values, hvalues, hmem⟩, hcomplete⟩
  · rintro ⟨⟨values, hvalues, hmem⟩, hcomplete⟩
    exact ⟨keepComplete f.rows values, List.mem_map.2 ⟨_, hvalues, rfl⟩,
      (hkept values hvalues).2 ⟨hmem, hcomplete⟩⟩

/-- **A well-formed table is laid out.** -/
theorem IsWellFormed.isLaidOut : f.IsLaidOut where
  column _ hc := congrArg₂ Layout.mk (h.index_columnSeries hc) (h.values_columnSeries hc)
  window := h.window?_eq
  dropIncomplete := h.dropIncomplete?_eq
  reduceRows := h.reduceRows?_eq
  cell?_dropIncomplete _ _ _ := h.cell?_dropIncomplete

end

end Frame

end SeriesAlgebra
