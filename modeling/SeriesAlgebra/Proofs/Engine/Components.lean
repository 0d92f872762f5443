import SeriesAlgebra.Proofs.Engine.Replay
import SeriesAlgebra.Proofs.Engine.StaleReferences
import SeriesAlgebra.Proofs.Formula.ExpandedLeaves

/-!
# Components of formulas

A formula is broken down by its references, formula by formula, and it is expanded by its
leaves, into one tree. The two agree: the series in the breakdown are those that the expanded
formula refers to, and what is broken down in it are the formula and the formulas that its
references lead to (`Engine.components_of_expandedTree`).

That is because every component tells the references of its formula in order
(`Engine.IsTold`). So the names in a breakdown are all that is led to
(`Engine.exists_node_iff`), however often and on whatever ways.
-/

namespace SeriesAlgebra

open Relation

/-! ### Trees of components -/

namespace Component

/-- The name of what is a component. -/
def name : Component → String
  | series name => name
  | formula name _ => name

mutual

/-- A component and all that are below it. -/
def nodes : Component → List Component
  | series name => [series name]
  | formula name parts => formula name parts :: nodesOfAll parts

/-- Several components and all that are below them. -/
def nodesOfAll : List Component → List Component
  | [] => []
  | part :: rest => part.nodes ++ nodesOfAll rest

end

/-- **Induction on components.** -/
theorem inductionOn {P : Component → Prop} (series : ∀ name, P (series name))
    (formula : ∀ name parts, (∀ part ∈ parts, P part) → P (formula name parts)) : ∀ c, P c
  | .series name => series name
  | .formula name parts => formula name parts fun part hpart =>
    have : sizeOf part < sizeOf (Component.formula name parts) := by
      have := List.sizeOf_lt_of_mem hpart
      simp only [Component.formula.sizeOf_spec]
      omega
    inductionOn series formula part
termination_by c => sizeOf c

variable {c d : Component} {parts : List Component} {label : String}

theorem mem_nodesOfAll : d ∈ nodesOfAll parts ↔ ∃ part ∈ parts, d ∈ part.nodes := by
  induction parts with
  | nil => simp [nodesOfAll]
  | cons part rest ih => rw [nodesOfAll, List.mem_append, ih, List.exists_mem_cons_iff]

theorem mem_nodes_formula :
    d ∈ (formula label parts).nodes ↔ d = formula label parts ∨ ∃ part ∈ parts, d ∈ part.nodes := by
  rw [nodes, List.mem_cons, mem_nodesOfAll]

theorem self_mem_nodes (c : Component) : c ∈ c.nodes := by
  cases c with
  | series label => exact List.mem_singleton.2 rfl
  | formula label parts => exact mem_nodes_formula.2 (Or.inl rfl)

/-- The parts of what is below a component are below it. -/
theorem part_mem_nodes (h : formula label parts ∈ c.nodes) (hd : d ∈ parts) : d ∈ c.nodes := by
  induction c using inductionOn with
  | series other => exact Component.noConfusion (List.mem_singleton.1 h)
  | formula other others ih =>
    refine mem_nodes_formula.2 (Or.inr ?_)
    rcases mem_nodes_formula.1 h with heq | ⟨part, hpart, hmem⟩
    · obtain ⟨-, rfl⟩ := Component.formula.inj heq
      exact ⟨d, hd, self_mem_nodes d⟩
    · exact ⟨part, hpart, ih part hpart hmem⟩

end Component

namespace Engine

open SeriesAlgebra.Tree

variable {e : Engine} {name other : String} {levels : Nat} {c d : Component}
  {found : Option Component} {u : Tree}

/-! ### What is told of references -/

/-- **Whether a component is told as it is**: a series is no formula, and a formula has what it refers
to as its parts, in order. -/
def IsTold (e : Engine) : Component → Prop
  | .series name => e.formulas.contains name = false
  | .formula name parts => ∃ t, e.formulaTree? name = .ok (some t) ∧
      parts.map Component.name = t.seriesReferences e.registry

/-- Whether a component and all below it are told as they are. -/
def IsToldThroughout (e : Engine) (c : Component) : Prop := ∀ d ∈ c.nodes, e.IsTold d

section

variable (hsources : e.sources = [])

include hsources

/-- A reference is broken down if it is to a formula. -/
theorem component_cases {breakDown : String → Except EngineError (Option Component)}
    (h : e.component breakDown true name = .ok c) :
    e.formulas.contains name = true ∧
        (∃ found, breakDown name = .ok found ∧ c = found.getD (.series name)) ∨
      e.formulas.contains name = false ∧ c = .series name := by
  unfold component sourceOf? at h
  rw [hsources] at h
  dsimp only at h
  split at h
  · rename_i hname
    obtain ⟨found, hfound, rfl⟩ := Result.map_ok h
    exact Or.inl ⟨hname, found, hfound, rfl⟩
  · rename_i hname
    refine Or.inr ⟨Bool.eq_false_iff.2 hname, ?_⟩
    split at h <;> exact (Except.ok.inj h).symm

/-- What is broken down is a formula, with what its references are broken down to. -/
theorem componentsWithin_cases (h : e.componentsWithin true (levels + 1) name = .ok found) :
    e.formulaTree? name = .ok none ∧ found = none ∨
      ∃ t parts, e.formulaTree? name = .ok (some t) ∧ found = some (.formula name parts) ∧
        List.Forall₂ (fun n part => e.component (e.componentsWithin true levels) true n = .ok part)
          (t.seriesReferences e.registry) parts := by
  rw [componentsWithin] at h
  obtain ⟨tree, htree, h⟩ := Result.bind_ok h
  have htree := Result.mapError_ok htree
  cases tree with
  | none =>
    refine Or.inl ⟨htree, ?_⟩
    unfold sourceOf? at h
    rw [hsources] at h
    dsimp only at h
    split at h <;> exact (Except.ok.inj h).symm
  | some t =>
    obtain ⟨parts, hparts, h⟩ := Result.bind_ok h
    exact Or.inr ⟨t, parts, htree, (Except.ok.inj h).symm, Result.forall₂_of_mapM hparts⟩

/-- **Components are told as they are.** -/
theorem isTold_of_componentsWithin (h : e.componentsWithin true levels name = .ok (some c)) :
    c.name = name ∧ e.IsToldThroughout c := by
  induction levels generalizing name c with
  | zero => cases h
  | succ levels ih =>
    rcases componentsWithin_cases hsources h with ⟨-, hnone⟩ | ⟨t, parts, ht, hfound, hparts⟩
    · cases hnone
    obtain rfl := Option.some.inj hfound
    have hpart (n : String) (part : Component)
        (h : e.component (e.componentsWithin true levels) true n = .ok part) :
        part.name = n ∧ e.IsToldThroughout part := by
      rcases component_cases hsources h with ⟨hn, found, hfound, rfl⟩ | ⟨hn, rfl⟩
      · cases found with
        | some part => exact ih hfound
        | none =>
          -- Nothing is broken down to nothing if it is a formula.
          cases levels with
          | zero => cases hfound
          | succ levels =>
            rcases componentsWithin_cases hsources hfound with ⟨hnone, -⟩ | ⟨_, _, _, hsome, _⟩
            · cases hn.symm.trans (not_contains hnone)
            · cases hsome
      · refine ⟨rfl, fun d hd => ?_⟩
        obtain rfl := List.mem_singleton.1 hd
        exact hn
    refine ⟨rfl, fun d hd => ?_⟩
    rcases Component.mem_nodes_formula.1 hd with rfl | ⟨part, hmem, hd⟩
    · refine ⟨t, ht, ?_⟩
      have hnames : List.Forall₂ Eq (parts.map Component.name) (t.seriesReferences e.registry) :=
        List.forall₂_map_left_iff.2 (hparts.flip.imp fun part n h => (hpart n part h).1)
      exact List.forall₂_eq_eq_eq ▸ hnames
    · obtain ⟨n, -, h⟩ := Result.exists_of_mem_right hparts hmem
      exact (hpart n part h).2 d hd

end

/-! ### What is led to -/

/-- What is below a component is led to. -/
theorem reflTransGen_of_mem_nodes (hc : e.IsToldThroughout c) (hd : d ∈ c.nodes) :
    ReflTransGen (Mentions e.registry e.formulas) c.name d.name := by
  induction c using Component.inductionOn with
  | series label =>
    obtain rfl := List.mem_singleton.1 hd
    exact .refl
  | formula label parts ih =>
    obtain ⟨t, ht, hparts⟩ := hc _ (Component.self_mem_nodes _)
    rcases Component.mem_nodes_formula.1 hd with rfl | ⟨part, hmem, hd⟩
    · exact .refl
    · have hmentioned : part.name ∈ t.seriesReferences e.registry :=
        hparts ▸ List.mem_map_of_mem hmem
      refine .head ⟨t, ht, hmentioned⟩ (ih part hmem (fun d hd => hc d ?_) hd)
      exact Component.mem_nodes_formula.2 (Or.inr ⟨part, hmem, hd⟩)

/-- **The names in a breakdown are all that is led to.** -/
theorem exists_node_iff (hc : e.IsToldThroughout c) :
    (∃ d ∈ c.nodes, d.name = other) ↔
      ReflTransGen (Mentions e.registry e.formulas) c.name other := by
  constructor
  · rintro ⟨d, hd, rfl⟩
    exact reflTransGen_of_mem_nodes hc hd
  · intro hleads
    induction hleads with
    | refl => exact ⟨c, Component.self_mem_nodes c, rfl⟩
    | tail _ hstep ih =>
      obtain ⟨d, hd, rfl⟩ := ih
      obtain ⟨t, ht, hmem⟩ := hstep
      cases d with
      | series label => cases (contains_of_formulaTree? ht).symm.trans (hc _ hd)
      | formula label parts =>
        obtain ⟨t', ht', hparts⟩ := hc _ hd
        obtain rfl := Option.some.inj (Except.ok.inj (ht.symm.trans ht'))
        rw [← hparts] at hmem
        obtain ⟨part, hpart, rfl⟩ := List.mem_map.1 hmem
        exact ⟨part, Component.part_mem_nodes hd hpart, rfl⟩

theorem series_mem_nodes_iff (hc : e.IsToldThroughout c) :
    .series other ∈ c.nodes ↔ e.formulas.contains other = false ∧
      ReflTransGen (Mentions e.registry e.formulas) c.name other := by
  rw [← exists_node_iff hc]
  refine ⟨fun h => ⟨hc _ h, _, h, rfl⟩, ?_⟩
  rintro ⟨hother, d, hd, rfl⟩
  cases d with
  | series label => exact hd
  | formula label parts =>
    obtain ⟨t, ht, -⟩ := hc _ hd
    cases (contains_of_formulaTree? ht).symm.trans hother

theorem formula_mem_nodes_iff (hc : e.IsToldThroughout c) :
    (∃ parts, .formula other parts ∈ c.nodes) ↔ e.formulas.contains other = true ∧
      ReflTransGen (Mentions e.registry e.formulas) c.name other := by
  rw [← exists_node_iff hc]
  constructor
  · rintro ⟨parts, h⟩
    obtain ⟨t, ht, -⟩ := hc _ h
    exact ⟨contains_of_formulaTree? ht, _, h, rfl⟩
  · rintro ⟨hother, d, hd, rfl⟩
    cases d with
    | series label => cases hother.symm.trans (hc _ hd)
    | formula label parts => exact ⟨parts, hd⟩

/-! ### Expanded formulas -/

/-- A formula refers to its leaves and to nothing else. -/
theorem mem_seriesReferences_iff (ht : u.Everywhere IsFormulaNode) :
    other ∈ u.seriesReferences .builtin ↔ u.HasLeaf other := by
  rw [seriesReferences, mem_sortedSet]
  exact ⟨Registry.namesByLeaves_builtin.hasLeaf_of_mem_references, fun h => h.mem_references ht⟩

theorem mentions_iff_leadsTo (he : e.Consistent) :
    Mentions e.registry e.formulas name other ↔ LeadsTo e.formulaTree? name other := by
  rw [he.registry]
  exact exists_congr fun t => and_congr_right fun ht =>
    mem_seriesReferences_iff (he.formulas.isKept ht).formula.nodes

/-- **What an expanded formula refers to** is what it leads to and is no formula. -/
theorem mem_seriesReferences_expandedTree (he : e.Consistent) (hu : e.expandedTree name = .ok u) :
    other ∈ u.seriesReferences e.registry ↔ e.formulas.contains other = false ∧
      TransGen (Mentions e.registry e.formulas) name other := by
  obtain ⟨t, ht, hexpand⟩ := expandedTree_ok hu
  have hmentions : Mentions e.registry e.formulas = LeadsTo e.formulaTree? :=
    funext₂ fun _ _ => propext (mentions_iff_leadsTo he)
  have hnone : e.formulaTree? other = .ok none ↔ e.formulas.contains other = false := by
    refine ⟨not_contains, fun h => ?_⟩
    rw [formulaTree?, OrderedMap.contains_eq_false_iff.1 h]
    rfl
  rw [he.registry, mem_seriesReferences_iff (isExpanded he hu).isFormula, ← he.registry,
    hasLeaf_expandBelow (fun _ _ hs => (he.formulas.isKept hs).formula.nodes)
      (he.formulas.isKept ht).formula.nodes (Result.mapError_ok hexpand),
    hnone, hmentions, TransGen.head'_iff]
  refine and_congr_right fun _ => exists_congr fun n => and_congr_left fun _ => ?_
  refine ⟨fun hn => ⟨t, ht, hn⟩, ?_⟩
  rintro ⟨s, hs, hn⟩
  obtain rfl := Option.some.inj (Except.ok.inj (hs.symm.trans ht))
  exact hn

/-- **The breakdown of a formula agrees with its expansion**, where there are both: the series in the
breakdown are those that the expanded formula refers to, and what is broken down are the formula
itself and the formulas that references lead to from it, each into what it refers to. -/
theorem components_of_expandedTree (he : e.Reachable) (hfound : e.components name true = .ok found)
    (hu : e.expandedTree name = .ok u) :
    ∃ c, found = some c ∧
      (∀ other, .series other ∈ c.nodes ↔ other ∈ u.seriesReferences e.registry) ∧
      (∀ other, (∃ parts, .formula other parts ∈ c.nodes) ↔ other = name ∨
        e.formulas.contains other = true ∧
          TransGen (Mentions e.registry e.formulas) name other) ∧
      ∀ other parts, .formula other parts ∈ c.nodes → ∃ t, e.formulaTree? other = .ok (some t) ∧
        parts.map Component.name = t.seriesReferences e.registry := by
  have hconsistent := he.consistent
  obtain ⟨t, ht, -⟩ := expandedTree_ok hu
  have hname := contains_of_formulaTree? ht
  obtain ⟨c, rfl⟩ : ∃ c, found = some c := by
    rcases componentsWithin_cases hconsistent.sources hfound with ⟨hnone, -⟩ | ⟨_, parts, _, rfl, _⟩
    · cases hnone.symm.trans ht
    · exact ⟨_, rfl⟩
  obtain ⟨rfl, hc⟩ := isTold_of_componentsWithin hconsistent.sources hfound
  refine ⟨c, rfl, fun other => ?_, fun other => ?_, fun other parts => hc _⟩
  · rw [series_mem_nodes_iff hc, mem_seriesReferences_expandedTree hconsistent hu,
      reflTransGen_iff_eq_or_transGen]
    refine and_congr_right fun hother => or_iff_right ?_
    rintro rfl
    cases hname.symm.trans hother
  · rw [formula_mem_nodes_iff hc, reflTransGen_iff_eq_or_transGen, and_or_left]
    refine or_congr_left (and_iff_right_of_imp ?_)
    rintro rfl
    exact hname

/-- An engine in which two formulas refer to the same third, and one to a series that is not there. -/
def sharing : Engine :=
  (overNothing .initial).performAll
    [.updateSeries "a" (.ofPoints "a" [(dayOf2024 0, 1.0)]) (dayOf2024 0) false,
      .registerFormula "shared" "(+ 1 (series \"a\"))" ⟨none, false⟩,
      .registerFormula "filled" "(add (series \"shared\" #:fill 0) (series \"b\"))"
        ⟨some false, false⟩,
      .registerFormula "both" "(priority (series \"filled\") (series \"shared\" #:prune 1))"
        ⟨none, false⟩]

theorem reachable_sharing : sharing.Reachable := (reachable_overNothing rfl).performAll _

theorem components_sharing : ∃ c u, sharing.components "both" true = .ok (some c) ∧
    sharing.expandedTree "both" = .ok u ∧ u.seriesReferences sharing.registry = ["a", "b"] ∧
    (∀ other, .series other ∈ c.nodes ↔ other ∈ ["a", "b"]) ∧
    (∀ other, (∃ parts, .formula other parts ∈ c.nodes) ↔ other = "both" ∨
      sharing.formulas.contains other = true ∧
        TransGen (Mentions sharing.registry sharing.formulas) "both" other) := by
  obtain ⟨c, hc⟩ := Result.exists_ok_some (x := sharing.components "both" true) (by decide +kernel)
  obtain ⟨u, hu, hreferences⟩ := Result.exists_ok_any (x := sharing.expandedTree "both")
    (p := fun u => u.seriesReferences sharing.registry == ["a", "b"]) (by decide +kernel)
  have hreferences := beq_iff_eq.1 hreferences
  obtain ⟨_, heq, hseries, hformulas, -⟩ := components_of_expandedTree reachable_sharing hc hu
  obtain rfl := Option.some.inj heq
  exact ⟨c, u, hc, hu, hreferences, hreferences ▸ hseries, hformulas⟩

end Engine

end SeriesAlgebra
