import SeriesAlgebra.Proofs.Formula.Relabeling.Basic

/-!
# Expanding formulas with other names

If all formulas that are inlined are others by other names (`Tree.RelabelsAll`), the
expansion of a formula with other names is that of the formula, with other names
(`Tree.exists_expand_of_relabels`).
-/

namespace SeriesAlgebra

namespace Tree

variable {f : String → String} {t u : Tree} {items others : List Tree} {name : String}

section

variable {resolve resolve' : String → Except TreeError (Option Tree)} {limit : Nat}

/-- What a leaf is expanded to, and when, if expansion stops nowhere. -/
theorem leafExpansion_iff {levels : Nat} {path : List String} :
    leafExpansion resolve limit levels path name items = .ok u ↔
      ∃ below, levels = below + 1 ∧ name ∉ path ∧ (resolve name = .ok none ∧ u = list items ∨
        ∃ t body, resolve name = .ok (some t) ∧
          expandBelow resolve [] limit below (path ++ [name]) t = .ok body ∧
          u = withCarried items body) := by
  have hstop : name ∉ ([] : List String) := List.not_mem_nil
  rw [leafExpansion, expandLeafBelow_iff, or_iff_right fun h => hstop h.1, and_iff_right hstop]

/-- What an image of a formula has of its literals. -/
theorem literal?_mapLeaves {g : String → List Tree → Except TreeError Tree}
    (hg : ∀ name items w, g name items = .ok w → w.literal? = none) (h : t.mapLeaves g = .ok u) :
    u.literal? = t.literal? := by
  cases t with
  | atom l =>
    rw [mapLeaves] at h
    rw [← Except.ok.inj h]
  | list items => exact isList_mapLeaves hg rfl h

/-- Images of formulas with other names, if those of leaves are. -/
theorem exists_mapLeaves_of_relabels {g g' : String → List Tree → Except TreeError Tree}
    (hg : ∀ name items w, g name items = .ok w → w.literal? = none)
    (ht : t.Everywhere IsFormulaNode) (htu : Relabels f t u) {v : Tree} (hv : t.mapLeaves g = .ok v)
    (hleaf : ∀ name items w, t.HasLeaf name → IsNamed items name → g name items = .ok w →
      ∃ w', g' (f name) (leafOf (f name) items) = .ok w' ∧ Relabels f w w') :
    ∃ v', u.mapLeaves g' = .ok v' ∧ Relabels f v v' := by
  induction t using inductionOn generalizing u v with
  | atom l =>
    obtain rfl := relabels_atom.1 htu
    rw [mapLeaves] at hv
    obtain rfl := Except.ok.inj hv
    exact ⟨_, by rw [mapLeaves]; rfl, relabels_atom.2 rfl⟩
  | list items ih =>
    obtain ⟨⟨b, hb, -, -, hscalar, -⟩, hitems⟩ := everywhere_list.1 ht
    cases hname : leafName? items with
    | some name =>
      obtain rfl := (relabels_leaf hname).1 htu
      rw [mapLeaves_leaf hname] at hv
      obtain rfl := hb.unique (calls_of_leafName? hname)
      rw [mapLeaves_leaf (leafName?_leafOf _ _)]
      exact hleaf name items v (.leaf hname) ⟨hb, hscalar (Or.inl rfl), hname⟩ hv
    | none =>
      obtain ⟨others, rfl, hothers⟩ := (relabels_list hname).1 htu
      obtain ⟨vs, rfl, hvs⟩ := mapLeaves_list hname hv
      have hname' := (leafName?_relabels hothers).trans hname
      have hnamev := (leafName?_congr (hvs.imp fun _ _ h => literal?_mapLeaves hg h)).trans hname
      have hall : ∀ t ∈ items, ∀ u v, Relabels f t u → t.mapLeaves g = .ok v →
          ∃ v', u.mapLeaves g' = .ok v' ∧ Relabels f v v' := fun t ht u v hu hv =>
        ih t ht (hitems t ht) hu hv fun name items w hn => hleaf name items w (.item hname ht hn)
      have hpairs : List.Forall₂ (fun u v => ∃ v', u.mapLeaves g' = .ok v' ∧ Relabels f v v')
          others vs :=
        Result.forall₂_comp hothers.flip hvs fun u _ t ht v htu hv => hall t ht u v htu hv
      obtain ⟨vs', hvs', hrelabels⟩ := Result.exists_forall₂_comp hpairs
      exact ⟨_, mapLeaves_of_forall₂ hname' hvs', (relabels_list hnamev).2 ⟨vs', rfl, hrelabels.flip⟩⟩

/-- **Whether formulas are others by other names**, as far as names are of interest. -/
structure RelabelsAll (f : String → String) (P : String → Prop)
    (resolve resolve' : String → Except TreeError (Option Tree)) : Prop where
  injective : ∀ a b, P a → P b → f a = f b → a = b
  formula : ∀ name t, resolve name = .ok (some t) → t.IsFormula
  leaves : ∀ name t, resolve name = .ok (some t) → ∀ other, t.HasLeaf other → P other
  none : ∀ name, P name → resolve name = .ok none → resolve' (f name) = .ok none
  some : ∀ name t, P name → resolve name = .ok (some t) →
    ∃ u, resolve' (f name) = .ok (some u) ∧ Relabels f t u

variable {P : String → Prop}

theorem RelabelsAll.isList (h : RelabelsAll f P resolve resolve') (name : String) (t : Tree)
    (ht : resolve name = .ok (Option.some t)) : t.literal? = Option.none :=
  (h.formula name t ht).isList

theorem RelabelsAll.not_mem_map (h : RelabelsAll f P resolve resolve') {path : List String}
    (hpath : ∀ n ∈ path, P n) (hname : P name) (hnot : name ∉ path) : f name ∉ path.map f := by
  intro hmem
  obtain ⟨n, hn, heq⟩ := List.mem_map.1 hmem
  exact hnot (h.injective n name (hpath n hn) hname heq ▸ hn)

/-- An inlined formula with what the leaf carries. -/
theorem relabels_withCarried (hnamed : IsNamed items name) (other : String) (h : Relabels f t u) :
    Relabels f (withCarried items t) (withCarried (leafOf other items) u) := by
  have hcarried : (leafOf other items).drop 2 = items.drop 2 := rfl
  unfold withCarried
  rw [hcarried]
  cases hdrop : items.drop 2 with
  | nil => exact h
  | cons a rest =>
    refine (relabels_list rfl).2 ⟨_, rfl, .cons (relabels_atom.2 rfl) (.cons h ?_)⟩
    refine forall₂_scalars fun s hs => hnamed.scalar s ?_
    rw [← hdrop] at hs
    rw [leaf_eq hnamed.name]
    exact List.mem_cons_of_mem _ hs

/-- **The expansion of a formula whose leaves have other names** is that of the formula, with other
names. -/
theorem exists_expandBelow_of_relabels (h : RelabelsAll f P resolve resolve') {levels : Nat}
    {path : List String} (hpath : ∀ n ∈ path, P n) (ht : t.Everywhere IsFormulaNode)
    (hleaves : ∀ n, t.HasLeaf n → P n) (htu : Relabels f t u) {v : Tree}
    (hv : expandBelow resolve [] limit levels path t = .ok v) :
    ∃ v', expandBelow resolve' [] limit levels (path.map f) u = .ok v' ∧ Relabels f v v' := by
  induction levels generalizing path t u v with
  | zero =>
    rw [expandBelow_eq] at hv ⊢
    refine exists_mapLeaves_of_relabels (fun _ _ _ hw => isList_expandLeafBelow h.isList hw) ht htu hv
      fun name items w _ _ hw => ?_
    obtain ⟨below, hlevels, -⟩ := leafExpansion_iff.1 hw
    cases hlevels
  | succ levels ih =>
    rw [expandBelow_eq] at hv ⊢
    refine exists_mapLeaves_of_relabels (fun _ _ _ hw => isList_expandLeafBelow h.isList hw) ht htu hv
      fun name items w hleaf hnamed hw => ?_
    obtain ⟨below, hlevels, hnot, hw⟩ := leafExpansion_iff.1 hw
    obtain rfl : levels = below := Nat.succ.inj hlevels
    have hname := hleaves name hleaf
    have hnot' := h.not_mem_map hpath hname hnot
    rcases hw with ⟨hnone, rfl⟩ | ⟨s, body, hs, hbody, rfl⟩
    · exact ⟨_, leafExpansion_iff.2 ⟨levels, rfl, hnot', Or.inl ⟨h.none name hname hnone, rfl⟩⟩,
        (relabels_leaf hnamed.name).2 rfl⟩
    · obtain ⟨s', hs', hss'⟩ := h.some name s hname hs
      have hpath' : ∀ n ∈ path ++ [name], P n := fun n hn => by
        rcases List.mem_append.1 hn with hn | hn
        · exact hpath n hn
        · exact List.mem_singleton.1 hn ▸ hname
      obtain ⟨body', hbody', hrelabels⟩ :=
        ih hpath' (h.formula name s hs).nodes (h.leaves name s hs) hss' hbody
      rw [List.map_append] at hbody'
      exact ⟨_, leafExpansion_iff.2 ⟨levels, rfl, hnot', Or.inr ⟨s', body', hs', hbody', rfl⟩⟩,
        relabels_withCarried hnamed _ hrelabels⟩

theorem exists_expand_of_relabels (h : RelabelsAll f P resolve resolve')
    (ht : t.Everywhere IsFormulaNode) (hleaves : ∀ n, t.HasLeaf n → P n) (htu : Relabels f t u)
    {v : Tree} (hv : t.expand resolve [] limit = .ok v) :
    ∃ v', u.expand resolve' [] limit = .ok v' ∧ Relabels f v v' :=
  exists_expandBelow_of_relabels h (fun _ hn => absurd hn List.not_mem_nil) ht hleaves htu hv

end

end Tree

end SeriesAlgebra
