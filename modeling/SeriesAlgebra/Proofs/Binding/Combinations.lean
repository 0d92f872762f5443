import Mathlib.Algebra.BigOperators.Group.List.Basic
import SeriesAlgebra.Binding.Basic
import SeriesAlgebra.Proofs.Order.Map
import SeriesAlgebra.Proofs.Result

/-!
# Combinations of scenarios

The combinations of scenarios are the elements of the product of the scenarios of all
families (`mem_combinations`, `length_combinations`). The label of a combination is its
scenarios with hyphens between them, so two combinations may have one label; but not if
no scenario has a hyphen in its name (`nodup_labels`).
-/

namespace SeriesAlgebra

variable {families : List (String × List String)} {picks : List (String × String)}

/-! ### The product -/

/-- Whether a scenario is picked for a family among those it has. -/
def PicksFrom (pick : String × String) (family : String × List String) : Prop :=
  pick.1 = family.1 ∧ pick.2 ∈ family.2

theorem mem_picksOf : picks ∈ picksOf families ↔ List.Forall₂ PicksFrom picks families := by
  induction families generalizing picks with
  | nil => rw [picksOf, List.mem_singleton, List.forall₂_nil_right_iff]
  | cons family rest ih =>
    obtain ⟨name, scenarios⟩ := family
    rw [picksOf, List.mem_flatMap, List.forall₂_cons_right_iff]
    constructor
    · rintro ⟨scenario, hscenario, hpicks⟩
      obtain ⟨others, hothers, rfl⟩ := List.mem_map.1 hpicks
      exact ⟨(name, scenario), others, ⟨rfl, hscenario⟩, ih.1 hothers, rfl⟩
    · rintro ⟨⟨_, scenario⟩, others, ⟨rfl, hscenario⟩, hothers, rfl⟩
      exact ⟨scenario, hscenario, List.mem_map_of_mem (ih.2 hothers)⟩

theorem length_picksOf : (picksOf families).length = (families.map (·.2.length)).prod := by
  induction families with
  | nil => rfl
  | cons family rest ih =>
    obtain ⟨name, scenarios⟩ := family
    simp only [picksOf, List.length_flatMap, List.length_map, ih, List.map_const',
      List.sum_replicate_nat, List.map_cons, List.prod_cons]

/-- Nothing is picked twice if no family has a scenario twice. -/
theorem nodup_picksOf (h : ∀ family ∈ families, family.2.Nodup) : (picksOf families).Nodup := by
  induction families with
  | nil => exact List.nodup_singleton []
  | cons family rest ih =>
    obtain ⟨name, scenarios⟩ := family
    obtain ⟨hscenarios, hrest⟩ := List.forall_mem_cons.1 h
    refine List.nodup_flatMap.2 ⟨fun scenario _ => ?_, hscenarios.imp fun hne => ?_⟩
    · exact (ih hrest).map fun _ _ heq => (List.cons.inj heq).2
    · intro _ hleft hright
      obtain ⟨_, _, rfl⟩ := List.mem_map.1 hleft
      obtain ⟨_, _, heq⟩ := List.mem_map.1 hright
      exact hne (Prod.mk.inj (List.cons.inj heq).1).2.symm

variable {scenariosOf : OrderedMap String (List String)} {c : Combination}

/-- **The combinations** are the choices of one scenario for each family. -/
theorem mem_combinations :
    c ∈ combinations scenariosOf ↔ List.Forall₂ PicksFrom c.picks scenariosOf.entries := by
  rw [← mem_picksOf, combinations, List.mem_map]
  constructor
  · rintro ⟨picks, hpicks, rfl⟩
    exact hpicks
  · exact fun hpicks => ⟨c.picks, hpicks, rfl⟩

/-- **The number of combinations** is the product of the numbers of scenarios. -/
theorem length_combinations :
    (combinations scenariosOf).length = (scenariosOf.values.map List.length).prod := by
  rw [combinations, List.length_map, length_picksOf, OrderedMap.values, List.map_map]
  rfl

/-- A combination has a scenario for every family, one that the family has. -/
theorem exists_scenario (hc : c ∈ combinations scenariosOf) {family : String}
    {scenarios : List String} (hfamily : scenariosOf.find? family = some scenarios) :
    ∃ scenario ∈ scenarios, c.scenario? family = some scenario := by
  have hpicks : List.Forall₂ (fun entry pick => PicksFrom pick entry) scenariosOf.entries c.picks :=
    (mem_combinations.1 hc).flip
  obtain ⟨scenario, hscenario, -, hmem⟩ :=
    OrderedMap.exists_lookup (fun _ _ hpick => hpick.1) hpicks hfamily
  exact ⟨scenario, hmem, hscenario⟩

/-! ### Labels -/

/-- Names without hyphens can be told from their text with hyphens between them. -/
theorem eq_of_intercalate {names others : List String} (hlength : names.length = others.length)
    (hnames : ∀ name ∈ names, '-' ∉ name.toList) (hothers : ∀ name ∈ others, '-' ∉ name.toList)
    (h : "-".intercalate names = "-".intercalate others) : names = others := by
  have hsplit (list : List String) (hne : list ≠ []) (hlist : ∀ name ∈ list, '-' ∉ name.toList) :
      ("-".intercalate list).toList.splitOn '-' = list.map String.toList := by
    rw [String.toList_intercalate]
    refine List.splitOn_intercalate '-' (fun chars hchars => ?_) (mt List.map_eq_nil_iff.1 hne)
    obtain ⟨name, hname, rfl⟩ := List.mem_map.1 hchars
    exact hlist name hname
  by_cases hnil : names = []
  · subst hnil
    exact (List.length_eq_zero_iff.1 hlength.symm).symm
  · have hnil' : others ≠ [] := by
      rintro rfl
      exact hnil (List.length_eq_zero_iff.1 hlength)
    have hchars : names.map String.toList = others.map String.toList := by
      rw [← hsplit names hnil hnames, ← hsplit others hnil' hothers, h]
    exact List.map_injective_iff.2 (fun _ _ => String.toList_inj.1) hchars

/-- What is picked from families is told by its scenarios. -/
theorem eq_of_scenarios {others : List (String × String)} (h : List.Forall₂ PicksFrom picks families)
    (hothers : List.Forall₂ PicksFrom others families)
    (heq : picks.map (·.2) = others.map (·.2)) : picks = others := by
  induction h generalizing others with
  | nil => exact (List.forall₂_nil_right_iff.1 hothers).symm
  | cons hpick _ ih =>
    obtain ⟨⟨name, scenario⟩, rest, hpick', hrest, rfl⟩ := List.forall₂_cons_right_iff.1 hothers
    obtain ⟨hscenario, heq⟩ := List.cons.inj heq
    rw [ih hrest heq, Prod.ext (hpick.1.trans hpick'.1.symm) hscenario]

/-- **No two combinations have one label** if the scenarios of a family have different names, and
none of them has a hyphen in its name. -/
theorem nodup_labels (hnodup : ∀ scenarios ∈ scenariosOf.values, scenarios.Nodup)
    (hhyphen : ∀ scenarios ∈ scenariosOf.values, ∀ name ∈ scenarios, '-' ∉ name.toList) :
    ((combinations scenariosOf).map Combination.label).Nodup := by
  have hentries {entry : String × List String} (h : entry ∈ scenariosOf.entries) :
      entry.2 ∈ scenariosOf.values := List.mem_map_of_mem h
  have hfree {c : Combination} (hc : c ∈ combinations scenariosOf) :
      ∀ name ∈ c.picks.map (·.2), '-' ∉ name.toList := by
    intro name hname
    obtain ⟨pick, hpick, rfl⟩ := List.mem_map.1 hname
    obtain ⟨entry, hentry, hpicked⟩ := Result.exists_of_mem_left (mem_combinations.1 hc) hpick
    exact hhyphen _ (hentries hentry) _ hpicked.2
  have hcombinations : (combinations scenariosOf).Nodup := by
    refine (nodup_picksOf fun entry hentry => hnodup _ (hentries hentry)).map fun _ _ heq => ?_
    exact congrArg Combination.picks heq
  refine hcombinations.map_on fun c hc d hd hlabel => ?_
  have hc' := mem_combinations.1 hc
  have hd' := mem_combinations.1 hd
  have hlength : (c.picks.map (·.2)).length = (d.picks.map (·.2)).length := by
    rw [List.length_map, List.length_map, hc'.length_eq, hd'.length_eq]
  have hpicks := eq_of_scenarios hc' hd' (eq_of_intercalate hlength (hfree hc) (hfree hd) hlabel)
  rw [← Combination.mk.injEq] at hpicks
  exact hpicks

end SeriesAlgebra
