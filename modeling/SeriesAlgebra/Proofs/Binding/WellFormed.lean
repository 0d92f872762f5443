import Mathlib.Data.List.Nodup
import SeriesAlgebra.Binding.Basic
import SeriesAlgebra.Proofs.Result

/-!
# Well-formed bindings

A binding is well formed if it has a row, no field of a row is empty and no series has
two rows (`Binding.IsWellFormed`). That is exactly what is checked when a binding is
made (`Binding.ofRows?_eq_ok_iff`).
-/

namespace SeriesAlgebra

/-- Whether nothing in a row is empty. -/
structure BindingRow.IsFilled (row : BindingRow) : Prop where
  series : row.series ≠ ""
  group : row.group ≠ ""
  family : row.family ≠ ""

namespace Binding

/-- The series that are bound, as they are written. -/
def boundSeries (b : Binding) : List String := b.rows.map (·.series)

/-- **What a binding must be.** -/
structure IsWellFormed (b : Binding) : Prop where
  hasRow : b.rows ≠ []
  filled : ∀ row ∈ b.rows, row.IsFilled
  boundOnce : b.boundSeries.Nodup

instance (row : BindingRow) : Decidable row.IsFilled :=
  decidable_of_iff (row.series ≠ "" ∧ row.group ≠ "" ∧ row.family ≠ "")
    ⟨fun ⟨hs, hg, hf⟩ => ⟨hs, hg, hf⟩, fun ⟨hs, hg, hf⟩ => ⟨hs, hg, hf⟩⟩

instance (b : Binding) : Decidable b.IsWellFormed :=
  decidable_of_iff (b.rows ≠ [] ∧ (∀ row ∈ b.rows, row.IsFilled) ∧ b.boundSeries.Nodup)
    ⟨fun ⟨hr, hf, hb⟩ => ⟨hr, hf, hb⟩, fun ⟨hr, hf, hb⟩ => ⟨hr, hf, hb⟩⟩

theorem isFilled_iff {row : BindingRow} : row.IsFilled ↔
    ¬ (row.series.isEmpty || row.group.isEmpty || row.family.isEmpty) = true := by
  simp only [Bool.or_eq_true, String.isEmpty_iff, not_or, and_assoc]
  exact ⟨fun h => ⟨h.series, h.group, h.family⟩, fun ⟨hs, hg, hf⟩ => ⟨hs, hg, hf⟩⟩

/-- Rows after those of the series in `seen` have no fault if they are filled, and bind each series
once and none of these. -/
theorem rowFault?_eq_none_iff {formula : String} {seen : List String} {rows : List BindingRow} :
    rowFault? formula seen rows = none ↔ (∀ row ∈ rows, row.IsFilled) ∧
      (rows.map (·.series)).Nodup ∧ ∀ name ∈ rows.map (·.series), name ∉ seen := by
  induction rows generalizing seen with
  | nil => simp [rowFault?]
  | cons row rest ih =>
    rw [rowFault?]
    split
    · rename_i hempty
      refine ⟨nofun, fun ⟨hfilled, _⟩ => ?_⟩
      exact absurd hempty (isFilled_iff.1 (hfilled row List.mem_cons_self))
    · rename_i hfilled
      rw [← isFilled_iff] at hfilled
      split
      · rename_i hseen
        refine ⟨nofun, fun ⟨_, _, hnew⟩ => ?_⟩
        exact absurd (List.contains_iff_mem.1 hseen) (hnew _ List.mem_cons_self)
      · rename_i hnew
        rw [List.contains_iff_mem] at hnew
        rw [ih, List.map_cons, List.nodup_cons]
        constructor
        · rintro ⟨hrest, hnodup, hapart⟩
          refine ⟨List.forall_mem_cons.2 ⟨hfilled, hrest⟩, ⟨fun hmem => ?_, hnodup⟩,
            List.forall_mem_cons.2 ⟨hnew, fun name hname hseen => ?_⟩⟩
          · exact hapart _ hmem List.mem_cons_self
          · exact hapart name hname (List.mem_cons_of_mem _ hseen)
        · rintro ⟨hall, ⟨hmem, hnodup⟩, hapart⟩
          refine ⟨(List.forall_mem_cons.1 hall).2, hnodup, fun name hname hseen => ?_⟩
          rcases List.mem_cons.1 hseen with rfl | hseen
          · exact hmem hname
          · exact hapart name (List.mem_cons_of_mem _ hname) hseen

/-- **A binding is made of exactly the rows that are well formed.** -/
theorem ofRows?_eq_ok_iff {formula : String} {rows : List BindingRow} {b : Binding} :
    ofRows? formula rows = .ok b ↔ b = ⟨formula, rows⟩ ∧ b.IsWellFormed := by
  unfold ofRows?
  constructor
  · intro h
    split at h
    · cases h
    · rename_i hrow
      split at h
      · cases h
      · rename_i hfault
        obtain rfl := Except.ok.inj h
        obtain ⟨hfilled, hnodup, -⟩ := rowFault?_eq_none_iff.1 hfault
        exact ⟨rfl, by simpa using hrow, hfilled, hnodup⟩
  · rintro ⟨rfl, h⟩
    have hfault : rowFault? formula [] rows = none :=
      rowFault?_eq_none_iff.2 ⟨h.filled, h.boundOnce, fun _ _ => List.not_mem_nil⟩
    rw [if_neg (by simpa using h.hasRow), hfault]

/-- A binding of records is well formed too. -/
theorem isWellFormed_of_ofRecords? {formula : String} {records : List Json} {b : Binding}
    (h : ofRecords? formula records = .ok b) : b.formula = formula ∧ b.IsWellFormed := by
  obtain ⟨rows, -, h⟩ := Result.bind_ok h
  obtain ⟨rfl, hb⟩ := ofRows?_eq_ok_iff.1 h
  exact ⟨rfl, hb⟩

end Binding

end SeriesAlgebra
