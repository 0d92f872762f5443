import SeriesAlgebra.Proofs.Formula.Expansion

/-!
# The leaves of a history

What the history of a formula is replayed from are its series leaves that have a name,
and its constant calls, wherever they stand in the formula (`Tree.mem_leavesOfHistory`).
-/

namespace SeriesAlgebra

open Evaluation

namespace Tree

/-- What a call has in the history of the formula in which it stands. -/
inductive IsHistoryLeaf : List Tree → HistoryLeaf → Prop
  | series {items : List Tree} {name : String} (h : leafName? items = some name) :
      IsHistoryLeaf items (.series name)
  | autotrophic {items : List Tree} (h : Calls items .constant) :
      IsHistoryLeaf items (.autotrophic (list items))

theorem mem_leavesOfHistoryOfAll {registry : Registry} {leaf : HistoryLeaf} {items : List Tree} :
    leaf ∈ leavesOfHistoryOfAll registry items ↔ ∃ t ∈ items, leaf ∈ t.leavesOfHistory registry := by
  induction items with
  | nil => simp [leavesOfHistoryOfAll]
  | cons t rest ih => rw [leavesOfHistoryOfAll, List.mem_append, ih, List.exists_mem_cons_iff]

/-- A node without a known operator has no leaves. -/
theorem leavesOfHistory_of_unknown {registry : Registry} {t : Tree}
    (h : registry.operatorOf? t = none) : t.leavesOfHistory registry = [] := by
  cases t with
  | atom l => rw [leavesOfHistory]
  | list items =>
    cases items with
    | nil => rw [leavesOfHistory]
    | cons head args => rw [leavesOfHistory, h]

/-- The leaves of a call of a known operator. -/
theorem leavesOfHistory_of_known {registry : Registry} {t : Tree} {op : Operator}
    (h : registry.operatorOf? t = some op) : t.leavesOfHistory registry =
      if op.isAutotrophic then [.autotrophic t]
      else (op.namedSeries? t.args).elim (leavesOfHistoryOfAll registry t.args) (·.map .series) := by
  cases t with
  | atom l => cases h
  | list items =>
    cases items with
    | nil => cases h
    | cons head args =>
      have hargs : (list (head :: args)).args = args := rfl
      rw [leavesOfHistory, h, hargs]
      dsimp only
      cases op.namedSeries? args <;> rfl

/-- The leaves of a call. -/
theorem leavesOfHistory_call {items : List Tree} {b : Builtin} (hb : Calls items b) :
    (list items).leavesOfHistory .builtin =
      if b.isAutotrophic then [.autotrophic (list items)]
      else (b.namedSeries? items.tail).elim (leavesOfHistoryOfAll .builtin items.tail)
        (·.map .series) := leavesOfHistory_of_known hb.operatorOf?

/-- A scalar has no leaves. -/
theorem not_isHistoryLeaf {t : Tree} (ht : t.IsScalar) {items : List Tree}
    (hitems : list items ∈ t.nodes) {leaf : HistoryLeaf} : ¬ IsHistoryLeaf items leaf := by
  obtain ⟨b, hb, hscalar⟩ := ht _ hitems
  rintro (⟨hname⟩ | ⟨hconstant⟩)
  · obtain rfl := hb.unique (calls_of_leafName? hname)
    cases hscalar
  · obtain rfl := hb.unique hconstant
    cases hscalar

/-- Where a leaf of a call stands: it is the call itself, or stands in an argument. -/
theorem exists_isHistoryLeaf_list {items : List Tree} {b : Builtin} (hb : Calls items b)
    {leaf : HistoryLeaf} : (∃ others, list others ∈ (list items).nodes ∧ IsHistoryLeaf others leaf) ↔
      IsHistoryLeaf items leaf ∨
        ∃ t ∈ items.tail, ∃ others, list others ∈ t.nodes ∧ IsHistoryLeaf others leaf := by
  obtain ⟨args, rfl⟩ := list_of_calls hb
  constructor
  · rintro ⟨others, hothers, hleaf⟩
    rcases mem_nodes_list.1 hothers with heq | ⟨t, ht, hnode⟩
    · exact Or.inl (list.inj heq ▸ hleaf)
    · rcases List.mem_cons.1 ht with rfl | ht
      · cases List.mem_singleton.1 hnode
      · exact Or.inr ⟨t, ht, others, hnode, hleaf⟩
  · rintro (hleaf | ⟨t, ht, others, hnode, hleaf⟩)
    · exact ⟨_, self_mem_nodes _, hleaf⟩
    · exact ⟨others, mem_nodes_list.2 (Or.inr ⟨t, List.mem_cons_of_mem _ ht, hnode⟩), hleaf⟩

/-- **What a history is replayed from** are the leaves of the formula. -/
theorem mem_leavesOfHistory {t : Tree} (ht : t.Everywhere IsFormulaNode) {leaf : HistoryLeaf} :
    leaf ∈ t.leavesOfHistory .builtin ↔
      ∃ items, list items ∈ t.nodes ∧ IsHistoryLeaf items leaf := by
  induction t using inductionOn with
  | atom l =>
    rw [leavesOfHistory]
    refine ⟨nofun, ?_⟩
    rintro ⟨items, hitems, -⟩
    cases List.mem_singleton.1 hitems
  | list items ih =>
    obtain ⟨⟨b, hb, -, -, hscalar, -⟩, hitems⟩ := everywhere_list.1 ht
    rw [leavesOfHistory_call hb, exists_isHistoryLeaf_list hb]
    have hargs : leaf ∈ leavesOfHistoryOfAll .builtin items.tail ↔
        ∃ t ∈ items.tail, ∃ others, list others ∈ t.nodes ∧ IsHistoryLeaf others leaf := by
      rw [mem_leavesOfHistoryOfAll]
      refine exists_congr fun t => and_congr_right fun ht => ?_
      exact ih t (List.mem_of_mem_tail ht) (hitems t (List.mem_of_mem_tail ht))
    have hnone (hleaf : b = .series ∨ b = .constant) :
        ¬ ∃ t ∈ items.tail, ∃ others, list others ∈ t.nodes ∧ IsHistoryLeaf others leaf := by
      rintro ⟨t, ht, others, hothers, hleaf'⟩
      exact not_isHistoryLeaf (hscalar (hleaf.imp_right Or.inl) t ht) hothers hleaf'
    by_cases hconstant : b = .constant
    · subst hconstant
      rw [show Builtin.constant.isAutotrophic = true from rfl, if_pos rfl, List.mem_singleton,
        or_iff_left (hnone (Or.inr rfl))]
      constructor
      · rintro rfl
        exact .autotrophic hb
      · rintro (⟨hname⟩ | ⟨-⟩)
        · cases hb.unique (calls_of_leafName? hname)
        · rfl
    have hauto : b.isAutotrophic = false := by
      cases b <;> first | rfl | exact absurd rfl hconstant
    rw [hauto, if_neg Bool.false_ne_true]
    cases hname : leafName? items with
    | some name =>
      obtain rfl := hb.unique (calls_of_leafName? hname)
      have hnamed : Builtin.series.namedSeries? items.tail = some [name] := by
        rw [leaf_eq hname]
        rfl
      rw [hnamed, or_iff_left (hnone (Or.inl rfl))]
      change leaf ∈ [HistoryLeaf.series name] ↔ _
      rw [List.mem_singleton]
      constructor
      · rintro rfl
        exact .series hname
      · rintro (⟨hname'⟩ | ⟨hconstant'⟩)
        · rw [Option.some.inj (hname.symm.trans hname')]
        · exact absurd (hb.unique hconstant') hconstant
    | none =>
      have hnamed : b.namedSeries? items.tail = none := by
        by_cases hseries : b = .series
        · subst hseries
          obtain ⟨args, rfl⟩ := list_of_calls hb
          cases args with
          | nil => rfl
          | cons a rest =>
            cases a with
            | list _ => rfl
            | atom l =>
              cases l with
              | str text => exact absurd (hname.symm.trans rfl) nofun
              | _ => rfl
        · cases b <;> first | rfl | exact absurd rfl hseries
      have hself : ¬ IsHistoryLeaf items leaf := by
        rintro (⟨hname'⟩ | ⟨hconstant'⟩)
        · exact absurd (hname.symm.trans hname') nofun
        · exact hconstant (hb.unique hconstant')
      rw [hnamed, or_iff_right hself]
      exact hargs

/-! ### Collected leaves -/

theorem mem_series_historyLeaves {t : Tree} (ht : t.Everywhere IsFormulaNode) {name : String} :
    name ∈ (t.historyLeaves .builtin).series ↔
      ∃ items, list items ∈ t.nodes ∧ leafName? items = some name := by
  unfold historyLeaves
  rw [mem_sortedSet, List.mem_filterMap]
  constructor
  · rintro ⟨leaf, hleaf, heq⟩
    cases leaf with
    | series name' =>
      obtain rfl := Option.some.inj heq
      obtain ⟨items, hitems, ⟨hname⟩⟩ := (mem_leavesOfHistory ht).1 hleaf
      exact ⟨items, hitems, hname⟩
    | autotrophic call => cases heq
  · rintro ⟨items, hitems, hname⟩
    exact ⟨.series name, (mem_leavesOfHistory ht).2 ⟨items, hitems, .series hname⟩, rfl⟩

theorem mem_autotrophic_historyLeaves {t : Tree} (ht : t.Everywhere IsFormulaNode) {call : Tree} :
    call ∈ (t.historyLeaves .builtin).autotrophic ↔
      ∃ items, list items ∈ t.nodes ∧ Calls items .constant ∧ call = list items := by
  unfold historyLeaves
  rw [List.mem_filterMap]
  constructor
  · rintro ⟨leaf, hleaf, heq⟩
    cases leaf with
    | series name => cases heq
    | autotrophic call' =>
      obtain rfl := Option.some.inj heq
      obtain ⟨items, hitems, hleaf⟩ := (mem_leavesOfHistory ht).1 hleaf
      cases hleaf with
      | autotrophic hconstant => exact ⟨items, hitems, hconstant, rfl⟩
  · rintro ⟨items, hitems, hconstant, rfl⟩
    exact ⟨_, (mem_leavesOfHistory ht).2 ⟨items, hitems, .autotrophic hconstant⟩, rfl⟩

end Tree

end SeriesAlgebra
