import SeriesAlgebra.Proofs.Formula.HistoryLeaves
import SeriesAlgebra.Proofs.Formula.Relabeling.Basic

/-!
# What formulas with other names refer to

A formula with other names refers to the same series by their other names
(`Tree.Relabels.references`), and so do the leaves of its history
(`Tree.Relabels.leavesOfHistory`). Whether it is pointwise does not depend on names
(`Tree.Relabels.isPointwise`).
-/

namespace SeriesAlgebra

open Evaluation

namespace Tree

variable {f : String → String} {t u : Tree} {items others : List Tree} {name : String}

/-! ### References -/

section

variable {b : Builtin}

theorem calls_leafOf (name : String) (items : List Tree) : Calls (leafOf name items) .series := rfl

/-- A leaf stands in a formula as one of its outermost leaves. -/
theorem hasLeaf_of_mem_nodes (ht : t.Everywhere IsFormulaNode) (hmem : list items ∈ t.nodes)
    (hname : leafName? items = some name) : t.HasLeaf name := by
  induction t using inductionOn with
  | atom l => cases List.mem_singleton.1 hmem
  | list others ih =>
    obtain ⟨⟨b, hb, -, -, hscalar, -⟩, hothers⟩ := everywhere_list.1 ht
    rcases mem_nodes_list.1 hmem with heq | ⟨s, hs, hnode⟩
    · obtain rfl := list.inj heq
      exact .leaf hname
    · cases hleaf : leafName? others with
      | none => exact .item hleaf hs (ih s hs (hothers s hs) hnode)
      | some n =>
        obtain rfl := hb.unique (calls_of_leafName? hleaf)
        obtain ⟨args, rfl⟩ := list_of_calls hb
        rcases List.mem_cons.1 hs with rfl | hs
        · cases List.mem_singleton.1 hnode
        · obtain ⟨c, hc, hcscalar⟩ := hscalar (Or.inl rfl) s hs _ hnode
          obtain rfl := hc.unique (calls_of_leafName? hname)
          cases hcscalar

theorem forall₂_relabels_tail (hall : List.Forall₂ (Relabels f) items others) :
    List.Forall₂ (Relabels f) items.tail others.tail := by
  cases hall with
  | nil => exact .nil
  | cons _ h => exact h

theorem Relabels.calls (hb : Calls items b) (hall : List.Forall₂ (Relabels f) items others) :
    Calls others b := by
  obtain ⟨args, rfl⟩ := list_of_calls hb
  cases hall with
  | cons hhead _ =>
    obtain rfl := relabels_atom.1 hhead
    rfl

/-- A leaf of a history whose series has another name. -/
def HistoryLeaf.mapName (f : String → String) : HistoryLeaf → HistoryLeaf
  | .series name => .series (f name)
  | .autotrophic call => .autotrophic call

/-- **What the history of a formula with other names is replayed from.** -/
theorem Relabels.leavesOfHistory (ht : t.Everywhere IsFormulaNode) (h : Relabels f t u) :
    u.leavesOfHistory .builtin = (t.leavesOfHistory .builtin).map (HistoryLeaf.mapName f) := by
  induction t using inductionOn generalizing u with
  | atom l =>
    obtain rfl := relabels_atom.1 h
    rw [Tree.leavesOfHistory]
    rfl
  | list items ih =>
    obtain ⟨⟨b, hb, -, -, hscalar, -⟩, hitems⟩ := everywhere_list.1 ht
    cases hname : leafName? items with
    | some name =>
      obtain rfl := hb.unique (calls_of_leafName? hname)
      obtain rfl := (relabels_leaf hname).1 h
      rw [leavesOfHistory_call hb, leavesOfHistory_call (calls_leafOf _ items), namedSeries?_tail hb,
        namedSeries?_tail (calls_leafOf _ items), hname, leafName?_leafOf]
      rfl
    | none =>
      obtain ⟨others, rfl, hall⟩ := (relabels_list hname).1 h
      have hothers : Calls others b := Relabels.calls hb hall
      rw [leavesOfHistory_call hb, leavesOfHistory_call hothers, namedSeries?_tail hb,
        namedSeries?_tail hothers, leafName?_relabels hall, hname]
      by_cases hconstant : b = .constant
      · subst hconstant
        obtain ⟨args, rfl⟩ := list_of_calls hb
        have heq : others = symbol Builtin.constant.name :: args := by
          refine map_scalars (fun t ht => ?_) hall
          rcases List.mem_cons.1 ht with rfl | ht
          · exact everywhere_atom.2 trivial
          · exact hscalar (Or.inr (Or.inl rfl)) t ht
        rw [heq]
        rfl
      · have hauto : b.isAutotrophic = false := by
          cases b <;> first | rfl | exact absurd rfl hconstant
        rw [hauto, if_neg Bool.false_ne_true, if_neg Bool.false_ne_true]
        change leavesOfHistoryOfAll .builtin others.tail =
          (leavesOfHistoryOfAll .builtin items.tail).map _
        have htail := forall₂_relabels_tail hall
        have hih : ∀ t ∈ items.tail, ∀ u, Relabels f t u →
            u.leavesOfHistory .builtin = (t.leavesOfHistory .builtin).map (HistoryLeaf.mapName f) :=
          fun t ht u hu => ih t (List.mem_of_mem_tail ht) (hitems t (List.mem_of_mem_tail ht)) hu
        generalize items.tail = args at htail hih
        generalize others.tail = args' at htail
        induction htail with
        | nil => rfl
        | cons htu _ ih' =>
          rw [leavesOfHistoryOfAll, leavesOfHistoryOfAll, List.map_append,
            hih _ List.mem_cons_self _ htu, ih' fun t ht => hih t (List.mem_cons_of_mem _ ht)]

/-- **What a formula with other names refers to.** -/
theorem Relabels.references (ht : t.Everywhere IsFormulaNode) (h : Relabels f t u) :
    u.references .builtin = (t.references .builtin).map f := by
  induction t using inductionOn generalizing u with
  | atom l =>
    obtain rfl := relabels_atom.1 h
    rw [Tree.references]
    rfl
  | list items ih =>
    obtain ⟨⟨b, hb, -⟩, hitems⟩ := everywhere_list.1 ht
    cases hname : leafName? items with
    | some name =>
      obtain rfl := hb.unique (calls_of_leafName? hname)
      obtain rfl := (relabels_leaf hname).1 h
      rw [references_call hb, references_call (calls_leafOf _ items), namedSeries?_tail hb,
        namedSeries?_tail (calls_leafOf _ items), hname, leafName?_leafOf]
      rfl
    | none =>
      obtain ⟨others, rfl, hall⟩ := (relabels_list hname).1 h
      have hothers : Calls others b := Relabels.calls hb hall
      rw [references_call hb, references_call hothers, namedSeries?_tail hb,
        namedSeries?_tail hothers, leafName?_relabels hall, hname]
      change referencesOfAll .builtin others.tail = (referencesOfAll .builtin items.tail).map f
      have htail := forall₂_relabels_tail hall
      have hih : ∀ t ∈ items.tail, ∀ u, Relabels f t u →
          u.references .builtin = (t.references .builtin).map f :=
        fun t ht u hu => ih t (List.mem_of_mem_tail ht) (hitems t (List.mem_of_mem_tail ht)) hu
      generalize items.tail = args at htail hih
      generalize others.tail = args' at htail
      induction htail with
      | nil => rfl
      | cons htu _ ih' =>
        rw [referencesOfAll, referencesOfAll, List.map_append, hih _ List.mem_cons_self _ htu,
          ih' fun t ht => hih t (List.mem_cons_of_mem _ ht)]

end

/-! ### Pointwise formulas -/

/-- The keywords of a call can be told from which arguments are keywords. -/
theorem keywordNames_congr
    (h : List.Forall₂ (fun t u => u.keywordName? = t.keywordName?) items others) :
    keywordNames others = keywordNames items := by
  induction items using args_induct generalizing others with
  | nil =>
    cases h
    rfl
  | dangling a name ha =>
    cases h with
    | cons _ h =>
      cases h
      rfl
  | keyword a b rest name ha ih =>
    cases h with
    | cons haa h =>
      cases h with
      | cons _ h => rw [keywordNames_keyword ha, keywordNames_keyword (haa.trans ha), ih h]
  | positional a rest ha ih =>
    cases h with
    | cons haa h => rw [keywordNames_positional ha, keywordNames_positional (haa.trans ha), ih h]

theorem isSome_keyword? {operator : String} {args : List Tree} {c : CallArgs}
    (h : CallArgs.ofList operator args = .ok c) :
    (c.keyword? name).isSome = (keywordNames args).contains name := by
  rw [← names_of_ofList h, CallArgs.keyword?, Bool.eq_iff_iff]
  exact OrderedMap.contains_iff (m := ⟨c.keywords⟩)|>.trans List.contains_iff_mem.symm

/-- Whether a call reads neighbouring points can be told from its operator and its keywords. -/
theorem readsNeighbours_congr (hoperator : (list others).operator? = (list items).operator?)
    (h : List.Forall₂ (fun t u => u.keywordName? = t.keywordName?) items.tail others.tail) :
    (list others).readsNeighbours = (list items).readsNeighbours := by
  unfold readsNeighbours
  rw [hoperator]
  congr 1
  have hargs (items : List Tree) : (list items).callArgs =
      CallArgs.ofList ((list items).operator?.getD "") items.tail := rfl
  rw [hargs, hargs, hoperator]
  generalize (list items).operator?.getD "" = operator
  cases hitems : CallArgs.ofList operator items.tail with
  | ok c =>
    obtain ⟨d, hd, -⟩ := yields_ofList operator operator h c hitems
    rw [hd]
    dsimp only
    rw [isSome_keyword? hitems, isSome_keyword? hitems, isSome_keyword? hd, isSome_keyword? hd,
      keywordNames_congr h]
  | error cause =>
    cases hothers : CallArgs.ofList operator others.tail with
    | error cause' => rfl
    | ok d =>
      obtain ⟨c, hc, -⟩ := yields_ofList operator operator (h.flip.imp fun _ _ h => h.symm) d hothers
      cases hitems.symm.trans hc

theorem isPointwiseNode_congr {registry : Registry}
    (hoperator : (list others).operator? = (list items).operator?)
    (h : List.Forall₂ (fun t u => u.keywordName? = t.keywordName?) items.tail others.tail) :
    isPointwiseNode registry (list others) = isPointwiseNode registry (list items) := by
  unfold isPointwiseNode
  rw [hoperator, readsNeighbours_congr hoperator h]

/-- Other names do not make a difference to what is pointwise. -/
theorem Relabels.all_isPointwiseNode {registry : Registry} (h : Relabels f t u) :
    u.nodes.all (isPointwiseNode registry) = t.nodes.all (isPointwiseNode registry) := by
  have hatom (l : Literal) : (atom l).nodes.all (isPointwiseNode registry) = true := rfl
  induction t using inductionOn generalizing u with
  | atom l => rw [relabels_atom.1 h]
  | list items ih =>
    rw [nodes, List.all_cons]
    cases hname : leafName? items with
    | some name =>
      obtain rfl := (relabels_leaf hname).1 h
      have hnode : isPointwiseNode registry (list (leafOf (f name) items)) =
          isPointwiseNode registry (list items) := by
        rw [leaf_eq hname]
        exact isPointwiseNode_congr rfl (.cons rfl (List.forall₂_same.2 fun _ _ => rfl))
      rw [nodes, List.all_cons, hnode, leaf_eq hname]
      simp only [leafOf, nodesOfAll, List.all_append, symbol, str, hatom, List.drop_succ_cons,
        List.drop_zero]
    | none =>
      obtain ⟨others, rfl, hall⟩ := (relabels_list hname).1 h
      have hkeywords : List.Forall₂ (fun t u => u.keywordName? = t.keywordName?) items others :=
        hall.imp fun t u htu => by rw [Tree.keywordName?, Tree.keywordName?, htu.literal?]
      have hoperator : (list others).operator? = (list items).operator? := by
        change headSymbol? others = headSymbol? items
        unfold headSymbol?
        cases hall with
        | nil => rfl
        | cons htu _ =>
          simp only [List.head?_cons, Option.bind_some, htu.literal?]
      have htail : List.Forall₂ (fun t u => u.keywordName? = t.keywordName?) items.tail others.tail := by
        cases hkeywords with
        | nil => exact .nil
        | cons _ hrest => exact hrest
      rw [nodes, List.all_cons, isPointwiseNode_congr hoperator htail]
      congr 1
      clear hkeywords hoperator htail hname h
      induction hall with
      | nil => rfl
      | cons htu _ ih' =>
        rw [nodesOfAll, nodesOfAll, List.all_append, List.all_append,
          ih _ List.mem_cons_self htu, ih' fun t ht => ih t (List.mem_cons_of_mem _ ht)]

theorem Relabels.isPointwise {registry : Registry} (h : Relabels f t u) :
    u.isPointwise registry = t.isPointwise registry := h.all_isPointwiseNode

end Tree

end SeriesAlgebra
