/-!
# Sorted lists without repetition

A finite set whose order shows – the stamps of an index, the names a formula
refers to – is kept as the strictly increasing list of its elements. `sortedSet`
makes that list from any list, element by element.

Main statements: `mem_sortedSet`, that nothing is lost or added, and
`pairwise_sortedSet`, that the list is strictly increasing wherever `<` is a strict
linear order.
-/

namespace SeriesAlgebra

variable {α : Type} [DecidableEq α] [LT α] [DecidableLT α]

/-- An increasing list with one more element in its place, unless it has the element already. -/
def insertSorted (a : α) : List α → List α
  | [] => [a]
  | b :: rest =>
    if a = b then b :: rest
    else if a < b then a :: b :: rest
    else b :: insertSorted a rest

/-- The elements of a list in increasing order, each once. -/
def sortedSet (xs : List α) : List α := xs.foldr insertSorted []

/-! ### Laws -/

theorem mem_insertSorted {a b : α} {xs : List α} : b ∈ insertSorted a xs ↔ b = a ∨ b ∈ xs := by
  induction xs with
  | nil => simp [insertSorted]
  | cons c rest ih =>
    unfold insertSorted
    split
    · rename_i h
      simp [h]
    · split
      · simp
      · rw [List.mem_cons, ih, List.mem_cons]
        exact or_left_comm

/-- Sorting loses nothing and adds nothing. -/
theorem mem_sortedSet {a : α} {xs : List α} : a ∈ sortedSet xs ↔ a ∈ xs := by
  induction xs with
  | nil => rfl
  | cons b rest ih =>
    change a ∈ insertSorted b (sortedSet rest) ↔ _
    rw [mem_insertSorted, ih, List.mem_cons]

/-- An element goes where the list stays increasing. -/
theorem pairwise_insertSorted (trans : ∀ {a b c : α}, a < b → b < c → a < c)
    (compare : ∀ a b : α, a < b ∨ a = b ∨ b < a) (a : α) {xs : List α}
    (h : xs.Pairwise (· < ·)) : (insertSorted a xs).Pairwise (· < ·) := by
  induction xs with
  | nil => simp [insertSorted]
  | cons b rest ih =>
    obtain ⟨hb, hrest⟩ := List.pairwise_cons.1 h
    unfold insertSorted
    split
    · exact h
    · rename_i hne
      split
      · rename_i hab
        refine List.pairwise_cons.2 ⟨fun c hc => ?_, h⟩
        rcases List.mem_cons.1 hc with rfl | hc
        · exact hab
        · exact trans hab (hb c hc)
      · rename_i hab
        refine List.pairwise_cons.2 ⟨fun c hc => ?_, ih hrest⟩
        rcases mem_insertSorted.1 hc with rfl | hc
        · exact ((compare c b).resolve_left hab).resolve_left hne
        · exact hb c hc

/-- The list is strictly increasing. -/
theorem pairwise_sortedSet (trans : ∀ {a b c : α}, a < b → b < c → a < c)
    (compare : ∀ a b : α, a < b ∨ a = b ∨ b < a) (xs : List α) :
    (sortedSet xs).Pairwise (· < ·) := by
  induction xs with
  | nil => exact List.Pairwise.nil
  | cons a rest ih => exact pairwise_insertSorted trans compare a ih

end SeriesAlgebra
