import Mathlib.Logic.Relation
import SeriesAlgebra.Proofs.Formula.Acyclic

/-!
# Leaves of expanded formulas

Expansion puts formulas in the places of leaves, and what a leaf carries has no leaves itself.
So the leaves of an expanded formula come from the formulas that were put there
(`Tree.HasLeaf.of_image`), and none of theirs is lost (`Tree.HasLeaf.image`). All in all they are
the names that are no formulas among those that the leaves lead to, in any number of steps
(`Tree.hasLeaf_expandBelow`).
-/

namespace SeriesAlgebra

open Evaluation Relation

namespace Tree

variable {t u body : Tree} {items others : List Tree} {name other : String}

/-- A scalar has no leaves. -/
theorem IsScalar.not_hasLeaf (ht : t.IsScalar) : ¬ t.HasLeaf name := by
  intro hleaf
  obtain ⟨items, hmem, hname⟩ := hleaf.exists_node
  obtain ⟨b, hb, hscalar⟩ := ht _ hmem
  obtain rfl := hb.unique (calls_of_leafName? hname)
  cases hscalar

/-- What stands after the operator of a leaf of a formula is a scalar. -/
theorem isScalar_of_leaf (hitems : (list items).Everywhere IsFormulaNode)
    (hname : leafName? items = some name) : ∀ t ∈ items.tail, t.IsScalar := by
  obtain ⟨b, hb, -, -, hscalar, -⟩ := hitems.self
  obtain rfl := hb.unique (calls_of_leafName? hname)
  exact hscalar (Or.inl rfl)

/-! ### Leaves and their images -/

section

variable {f : String → List Tree → Except TreeError Tree}

/-- A list that is no leaf has no image that is one. -/
theorem leafName?_images (hitems : (list items).Everywhere IsFormulaNode)
    (hname : leafName? items = none)
    (hall : List.Forall₂ (fun t u => t.mapLeaves f = .ok u) items others) :
    leafName? others = none := by
  obtain ⟨b, hb, -, -, hscalar, -⟩ := hitems.self
  obtain ⟨args, rfl⟩ := list_of_calls hb
  by_cases hseries : b = .series
  · have hself : others = symbol b.name :: args := by
      refine map_scalars (fun t ht => ?_) hall
      rcases List.mem_cons.1 ht with rfl | ht
      · exact everywhere_atom.2 trivial
      · exact hscalar (Or.inl hseries) t ht
    rw [hself, hname]
  · cases hall with
    | cons hhead _ =>
      rw [symbol, mapLeaves] at hhead
      obtain rfl := Except.ok.inj hhead
      exact leafName?_eq_none (b := b) rfl hseries

/-- **The leaves of the image of a leaf** are leaves of the image of the formula. -/
theorem HasLeaf.image (hleaf : t.HasLeaf name) (ht : t.Everywhere IsFormulaNode)
    (h : t.mapLeaves f = .ok u) :
    ∃ items v, (list items).Everywhere IsFormulaNode ∧ leafName? items = some name ∧
      f name items = .ok v ∧ ∀ other, v.HasLeaf other → u.HasLeaf other := by
  induction hleaf generalizing u with
  | leaf hname =>
    rw [mapLeaves_leaf hname] at h
    exact ⟨_, u, ht, hname, h, fun _ => id⟩
  | item hname hmem _ ih =>
    obtain ⟨others, rfl, hall⟩ := mapLeaves_list hname h
    obtain ⟨w, hw, htw⟩ := Result.exists_of_mem_left hall hmem
    obtain ⟨items, v, hitems, hitemsName, hv, hleaves⟩ := ih (ht.item hmem) htw
    exact ⟨items, v, hitems, hitemsName, hv, fun other hother =>
      .item (leafName?_images ht hname hall) hw (hleaves other hother)⟩

/-- **A leaf of the image of a formula** is a leaf of the image of one of its leaves. -/
theorem HasLeaf.of_image (hleaf : u.HasLeaf other) (ht : t.Everywhere IsFormulaNode)
    (h : t.mapLeaves f = .ok u) :
    ∃ name items v, t.HasLeaf name ∧ (list items).Everywhere IsFormulaNode ∧
      leafName? items = some name ∧ f name items = .ok v ∧ v.HasLeaf other := by
  induction t using inductionOn generalizing u with
  | atom l =>
    rw [mapLeaves] at h
    obtain rfl := Except.ok.inj h
    exact absurd hleaf not_hasLeaf_atom
  | list items ih =>
    cases hname : leafName? items with
    | some name =>
      rw [mapLeaves_leaf hname] at h
      exact ⟨name, items, u, .leaf hname, ht, hname, h, hleaf⟩
    | none =>
      obtain ⟨others, rfl, hall⟩ := mapLeaves_list hname h
      obtain ⟨w, hw, hwleaf⟩ := (hasLeaf_list (leafName?_images ht hname hall)).1 hleaf
      obtain ⟨t, hmem, htw⟩ := Result.exists_of_mem_right hall hw
      obtain ⟨n, ns, v, hn, hrest⟩ := ih t hmem hwleaf (ht.item hmem) htw
      exact ⟨n, ns, v, .item hname hmem hn, hrest⟩

end

/-- What a leaf carries adds no leaves to the formula that is inlined for it. -/
theorem hasLeaf_withCarried (hitems : (list items).Everywhere IsFormulaNode)
    (hname : leafName? items = some name) :
    (withCarried items body).HasLeaf other ↔ body.HasLeaf other := by
  unfold withCarried
  split
  · rfl
  · have hoptions : Calls (symbol optionsOperator :: body :: items.drop 2) .options := rfl
    rw [hasLeaf_list (leafName?_eq_none hoptions nofun)]
    constructor
    · rintro ⟨t, ht, hleaf⟩
      rcases List.mem_cons.1 ht with rfl | ht
      · exact absurd hleaf not_hasLeaf_atom
      rcases List.mem_cons.1 ht with rfl | ht
      · exact hleaf
      · have hmem : t ∈ items.tail := by
          rw [← List.drop_one]
          exact List.mem_of_mem_drop (List.drop_drop (i := 1) (j := 1) (l := items) ▸ ht)
        exact absurd hleaf (isScalar_of_leaf hitems hname t hmem).not_hasLeaf
    · exact fun hleaf => ⟨body, List.mem_cons_of_mem _ List.mem_cons_self, hleaf⟩

/-! ### Expansion -/

variable {resolve : String → Except TreeError (Option Tree)} {limit levels : Nat}
  {path : List String}

/-- From a name that is no formula nothing is led to but the name itself. -/
theorem eq_of_leadsTo (hnone : resolve name = .ok none)
    (h : ReflTransGen (LeadsTo resolve) name other) : other = name := by
  rcases h.cases_head with heq | ⟨next, ⟨t, ht, -⟩, -⟩
  · exact heq.symm
  · cases hnone.symm.trans ht

/-- **The leaves of an expanded formula** are the names of no formulas among those to which its
leaves lead. -/
theorem hasLeaf_expandBelow (hresolve : ∀ name t, resolve name = .ok (some t) →
      t.Everywhere IsFormulaNode) (ht : t.Everywhere IsFormulaNode)
    (h : expandBelow resolve [] limit levels path t = .ok u) :
    u.HasLeaf other ↔ resolve other = .ok none ∧
      ∃ name, t.HasLeaf name ∧ ReflTransGen (LeadsTo resolve) name other := by
  -- A formula that is inlined is expanded one level below.
  induction levels using Nat.strong_induction_on generalizing path t u with
  | _ levels ih =>
    rw [expandBelow_eq] at h
    constructor
    · intro hleaf
      obtain ⟨name, items, v, hname, hitems, hitemsName, hv, hvleaf⟩ := hleaf.of_image ht h
      rcases leafExpansion_ok hv with ⟨hnone, rfl⟩ | ⟨below, s, body, rfl, hs, hbody, rfl⟩
      · obtain rfl := (hasLeaf_leaf hitemsName).1 hvleaf
        exact ⟨hnone, other, hname, .refl⟩
      · rw [hasLeaf_withCarried hitems hitemsName] at hvleaf
        obtain ⟨hnone, next, hnext, hleads⟩ :=
          (ih below below.lt_succ_self (hresolve name s hs) hbody).1 hvleaf
        exact ⟨hnone, name, hname, .head ⟨s, hs, hnext⟩ hleads⟩
    · rintro ⟨hnone, name, hname, hleads⟩
      obtain ⟨items, v, hitems, hitemsName, hv, hleaves⟩ := hname.image ht h
      refine hleaves other ?_
      rcases leafExpansion_ok hv with ⟨hprimary, rfl⟩ | ⟨below, s, body, rfl, hs, hbody, rfl⟩
      · obtain rfl := eq_of_leadsTo hprimary hleads
        exact .leaf hitemsName
      · rw [hasLeaf_withCarried hitems hitemsName,
          ih below below.lt_succ_self (hresolve name s hs) hbody]
        -- The name that is inlined is a formula, so what it leads to is not itself.
        rcases hleads.cases_head with rfl | ⟨next, ⟨s', hs', hnext⟩, hleads⟩
        · cases hnone.symm.trans hs
        · obtain rfl := Option.some.inj (Except.ok.inj (hs.symm.trans hs'))
          exact ⟨hnone, next, hnext, hleads⟩

end Tree

end SeriesAlgebra
