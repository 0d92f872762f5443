import Mathlib.Algebra.BigOperators.Ring.List
import Mathlib.Algebra.GroupWithZero.Nat
import SeriesAlgebra.Proofs.Binding.Combinations

/-!
# Combinations by position

A combination is made by choosing a position in the list of scenarios of each family. All
choices of positions are listed once each, in lexicographic order (`enumeratesChoices_choicesOf`),
and `combinations` goes through them in that order (`combinations_enumerate`). What matters is
the position and not the scenario, so that a family that has a scenario twice gives two
combinations for it.
-/

namespace SeriesAlgebra

/-! ### Choices of positions -/

/-- **Whether a list of choices has every choice of a position in each of some lists**, once each
and in lexicographic order. -/
structure EnumeratesChoices {α : Type} (lists : List (List α)) (choices : List (List Nat)) :
    Prop where
  ordered : choices.Pairwise (List.Lex (· < ·))
  mem : ∀ choice, choice ∈ choices ↔ List.Forall₂ (fun p list => p < list.length) choice lists

/-- The choices of a position in each of some lists, those in the last list changing first. -/
def choicesOf {α : Type} : List (List α) → List (List Nat)
  | [] => [[]]
  | list :: rest => (List.range list.length).flatMap fun p => (choicesOf rest).map (p :: ·)

section

variable {α : Type} {lists : List (List α)}

theorem mem_choicesOf {choice : List Nat} : choice ∈ choicesOf lists ↔
    List.Forall₂ (fun p list => p < list.length) choice lists := by
  induction lists generalizing choice with
  | nil => simp [choicesOf]
  | cons list rest ih =>
    rw [choicesOf, List.mem_flatMap, List.forall₂_cons_right_iff]
    constructor
    · rintro ⟨p, hp, hchoice⟩
      obtain ⟨others, hothers, rfl⟩ := List.mem_map.1 hchoice
      exact ⟨p, others, List.mem_range.1 hp, ih.1 hothers, rfl⟩
    · rintro ⟨p, others, hp, hothers, rfl⟩
      exact ⟨p, List.mem_range.2 hp, List.mem_map_of_mem (ih.2 hothers)⟩

theorem pairwise_choicesOf : (choicesOf lists).Pairwise (List.Lex (· < ·)) := by
  induction lists with
  | nil => exact List.pairwise_singleton _ _
  | cons list rest ih =>
    refine List.pairwise_flatMap.2 ⟨fun p _ => ?_, List.pairwise_lt_range.imp fun hlt => ?_⟩
    · exact ih.map _ fun _ _ h => .cons h
    · intro _ hleft _ hright
      obtain ⟨_, -, rfl⟩ := List.mem_map.1 hleft
      obtain ⟨_, -, rfl⟩ := List.mem_map.1 hright
      exact .rel hlt

theorem enumeratesChoices_choicesOf (lists : List (List α)) :
    EnumeratesChoices lists (choicesOf lists) := ⟨pairwise_choicesOf, fun _ => mem_choicesOf⟩

end

/-! ### What is picked at a position -/

/-- What is picked from a family at a position, if it has as many scenarios. -/
def pickAt? (family : String × List String) (p : Nat) : Option (String × String) :=
  family.2[p]?.map fun scenario => (family.1, scenario)

/-- **The picks are made position by position.** -/
theorem picksOf_eq (families : List (String × List String)) :
    (picksOf families).map (·.map some) =
      (choicesOf (families.map (·.2))).map (List.zipWith pickAt? families) := by
  induction families with
  | nil => rfl
  | cons family rest ih =>
    let after (pick : Option (String × String)) : List (List (Option (String × String))) :=
      ((picksOf rest).map (·.map some)).map (pick :: ·)
    have hafter (p : Nat) : after (pickAt? family p) =
        ((choicesOf (rest.map (·.2))).map (p :: ·)).map (List.zipWith pickAt? (family :: rest)) := by
      simp only [after, ih, List.map_map]
      rfl
    calc
      (picksOf (family :: rest)).map (·.map some)
      _ = (family.2.map some).flatMap fun scenario =>
            after (scenario.map fun scenario => (family.1, scenario)) := by
        rw [picksOf, List.map_flatMap, List.flatMap_map]
        simp only [after, List.map_map]
        rfl
      _ = (List.range family.2.length).flatMap fun p => after (pickAt? family p) := by
        rw [← Result.mapM_eq_some_iff.1 (Result.mapM_getElem?_range family.2), List.flatMap_map]
        rfl
      _ = _ := by
        simp only [hafter, ← List.map_flatMap]
        rfl

/-! ### Combinations -/

variable {families : OrderedMap String (List String)} {c : Combination}

/-- A combination has one pick for each family, in the order of the families. -/
theorem families_of_mem_combinations (hc : c ∈ combinations families) :
    c.picks.map (·.1) = families.keys := by
  rw [OrderedMap.keys, ← List.forall₂_eq_eq_eq, List.forall₂_map_left_iff, List.forall₂_map_right_iff]
  exact (mem_combinations.1 hc).imp fun _ _ h => h.1

/-- Of families in order each pick is found by its family. -/
theorem scenario?_of_mem_combinations (h : families.IsSorted) (hc : c ∈ combinations families)
    {pick : String × String} (hpick : pick ∈ c.picks) : c.scenario? pick.1 = some pick.2 := by
  have hsorted : (⟨c.picks⟩ : OrderedMap String String).IsSorted := by
    unfold OrderedMap.IsSorted OrderedMap.keys
    rw [families_of_mem_combinations hc]
    exact h
  exact (OrderedMap.mem_entries_iff hsorted).1 hpick

/-- **The combinations are the product of the scenarios of all families**: one for each choice of a
position in the list of each family, in lexicographic order of the choices. Each has one pick for a
family, in the order of the families, which is found by the family. So their number is the product of
the numbers of scenarios: one without families, and none just if a family has no scenario. -/
theorem combinations_enumerate (h : families.IsSorted) :
    (∃ choices, EnumeratesChoices families.values choices ∧
      (combinations families).map (·.picks.map some) =
        choices.map (List.zipWith pickAt? families.entries)) ∧
    (∀ c ∈ combinations families, c.picks.map (·.1) = families.keys ∧
      ∀ pick ∈ c.picks, c.scenario? pick.1 = some pick.2) ∧
    (combinations families).length = (families.values.map List.length).prod ∧
    (families.isEmpty = true → (combinations families).length = 1) ∧
    ((combinations families).length = 0 ↔ [] ∈ families.values) := by
  refine ⟨⟨choicesOf families.values, enumeratesChoices_choicesOf _, ?_⟩, fun c hc => ?_,
    length_combinations, fun hempty => ?_, ?_⟩
  · rw [combinations, List.map_map]
    exact picksOf_eq families.entries
  · exact ⟨families_of_mem_combinations hc, fun _ => scenario?_of_mem_combinations h hc⟩
  · rw [length_combinations, OrderedMap.values, List.isEmpty_iff.1 hempty]
    rfl
  · simp [length_combinations, List.prod_eq_zero_iff]

/-- Two families, the second of which has a scenario twice. -/
def loadsAndPrices : OrderedMap String (List String) :=
  ⟨[("load", ["low", "high"]), ("price", ["a", "b", "a"])]⟩

theorem combinations_enumerate_loadsAndPrices : loadsAndPrices.IsSorted ∧
    (combinations loadsAndPrices).length = 6 ∧
    ∃ c, (combinations loadsAndPrices)[4]? = some c ∧ c.scenario? "price" = some "b" := by
  have hsorted : loadsAndPrices.IsSorted := by unfold OrderedMap.IsSorted; decide
  obtain ⟨⟨choices, hchoices, hpicks⟩, hfound, hlength, -, -⟩ := combinations_enumerate hsorted
  refine ⟨hsorted, hlength, ⟨[("load", "high"), ("price", "b")]⟩, rfl, ?_⟩
  exact (hfound ⟨[("load", "high"), ("price", "b")]⟩ (by decide)).2 ("price", "b") (by decide)

end SeriesAlgebra
