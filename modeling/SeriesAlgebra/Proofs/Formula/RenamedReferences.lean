import SeriesAlgebra.Proofs.Formula.Acyclic

/-!
# What a formula refers to after a renaming

References are found by the operators: each may say which series a call names
(`Tree.namedSeries?`). A renaming knows nothing of operators and replaces the string after
the symbol `series`. The two meet in calls that name the same series after the renaming,
up to the new name (`Tree.IsFollowed`): a formula of such calls refers to what it referred
to, renamed (`Tree.references_renameSeries`).

Every call is one of these if no operator but `series` names anything
(`Registry.NamesByLeaves`), as in the built-in registry and with extensions that leave the
naming of series alone.
-/

namespace SeriesAlgebra

namespace Tree

variable {registry : Registry} {old new : String}

/-! ### Calls that are followed -/

/-- **Whether a call names the same series after a renaming**, up to the new name. -/
def IsFollowed (registry : Registry) (old new : String) (t : Tree) : Prop :=
  namedSeries? registry (t.renameSeries old new) =
    (namedSeries? registry t).map (List.map (renamed old new))

instance (t : Tree) : Decidable (t.IsFollowed registry old new) :=
  inferInstanceAs (Decidable (_ = _))

instance (t : Tree) : Decidable (t.Everywhere (IsFollowed registry old new)) :=
  inferInstanceAs (Decidable (∀ u ∈ t.nodes, u.IsFollowed registry old new))

theorem references_list (registry : Registry) (items : List Tree) :
    (list items).references registry =
      (namedSeries? registry (list items)).getD (referencesOfAll registry items.tail) := by
  cases items with
  | nil => rw [references]; rfl
  | cons head args =>
    rw [references]
    cases namedSeries? registry (list (head :: args)) <;> rfl

/-- An item refers to what it would refer to on its own. -/
theorem references_renameItem (named : Bool) (t : Tree) :
    (renameItem old new named t).references registry =
      (t.renameSeries old new).references registry := by
  cases t with
  | list items => rw [renameItem_list]
  | atom l =>
    obtain ⟨m, hm⟩ := alike_atom (alike_renameItem_atom old new named l)
    rw [hm, renameSeries, references, references]

/-- **A formula of calls that are followed refers to the same series after a renaming**, up to the new
name. -/
theorem references_renameSeries {t : Tree} (ht : t.Everywhere (IsFollowed registry old new)) :
    (t.renameSeries old new).references registry =
      (t.references registry).map (renamed old new) := by
  induction t using inductionOn with
  | atom l => rw [renameSeries, references]; rfl
  | list items ih =>
    obtain ⟨hfollowed, hitems⟩ := everywhere_list.1 ht
    have hall : ∀ (others : List Tree), others ⊆ items → ∀ named,
        referencesOfAll registry (renameItems old new named others) =
          (referencesOfAll registry others).map (renamed old new) := by
      intro others
      induction others with
      | nil => exact fun _ named => rfl
      | cons t rest ihrest =>
        intro hsub named
        have ht : t ∈ items := hsub List.mem_cons_self
        rw [renameItems, referencesOfAll, referencesOfAll, List.map_append, references_renameItem,
          ih t ht (hitems t ht), ihrest (fun u hu => hsub (List.mem_cons_of_mem _ hu))]
    have htail : (renameItems old new false items).tail = renameItems old new
        (items.head?.any isSeriesSymbol) items.tail := by
      cases items <;> rfl
    unfold IsFollowed at hfollowed
    rw [renameSeries] at hfollowed ⊢
    rw [references_list, references_list, hfollowed, htail, hall _ (List.tail_subset items)]
    cases namedSeries? registry (list items) <;> rfl

/-- After a renaming a formula of such calls does not refer to the old name, and it refers to the new
one if it referred to the old one. -/
theorem mem_seriesReferences_renameSeries {t : Tree}
    (ht : t.Everywhere (IsFollowed registry old new)) (hne : old ≠ new) :
    old ∉ (t.renameSeries old new).seriesReferences registry ∧
      (old ∈ t.seriesReferences registry →
        new ∈ (t.renameSeries old new).seriesReferences registry) := by
  simp only [seriesReferences, mem_sortedSet, references_renameSeries ht, List.mem_map]
  refine ⟨?_, fun hold => ⟨old, hold, renamed_old old new⟩⟩
  rintro ⟨n, -, hn⟩
  exact renamed_ne hne n hn

end Tree

/-! ### Registries in which nothing but leaves names series -/

/-- **Whether no operator but `series` names any series.** -/
structure Registry.NamesByLeaves (registry : Registry) : Prop where
  series : registry.find? Tree.seriesOperator = some (.builtin .series)
  others : ∀ symbol op, registry.find? symbol = some op → symbol ≠ Tree.seriesOperator →
    ∀ args, op.namedSeries? args = none

namespace Registry

theorem namesByLeaves_builtin : builtin.NamesByLeaves where
  series := find?_name .series
  others symbol op hop hsymbol args := by
    obtain ⟨b, rfl, rfl⟩ := find?_builtin hop
    cases b <;> first | rfl | exact absurd rfl hsymbol

/-- An extension that names no series may be added. -/
theorem NamesByLeaves.register {registry : Registry} (h : registry.NamesByLeaves) {e : Extension}
    (hname : e.name ≠ Tree.seriesOperator) (hnames : ∀ args, e.namedSeries? args = none) :
    (registry.register e).NamesByLeaves where
  series := (OrderedMap.find?_insert_of_ne _ hname.symm _).trans h.series
  others symbol op hop hsymbol args := by
    unfold Registry.register Registry.find? at hop
    by_cases heq : symbol = e.name
    · subst heq
      rw [OrderedMap.find?_insert_self] at hop
      obtain rfl := Option.some.inj hop
      exact hnames args
    · rw [OrderedMap.find?_insert_of_ne _ heq] at hop
      exact h.others symbol op hop hsymbol args

namespace NamesByLeaves

open SeriesAlgebra.Tree

variable {registry : Registry} (h : registry.NamesByLeaves)

include h

/-- A call names itself what it is a leaf of. -/
theorem namedSeries?_list (items : List Tree) :
    namedSeries? registry (list items) = (leafName? items).map fun name => [name] := by
  unfold namedSeries? operatorOf? leafName? seriesName? firstName?
  cases hsymbol : (list items).operator? with
  | none => rfl
  | some symbol =>
    by_cases hseries : symbol = seriesOperator
    · subst hseries
      rw [if_pos rfl, Option.bind_some, h.series]
      rfl
    · rw [if_neg fun heq => hseries (Option.some.inj heq), Option.bind_some]
      cases hop : registry.find? symbol with
      | none => rfl
      | some op => exact h.others symbol op hop hseries _

/-- All calls are followed. -/
theorem isFollowed (old new : String) (t : Tree) : t.IsFollowed registry old new := by
  cases t with
  | atom l => rw [IsFollowed, renameSeries]; rfl
  | list items =>
    rw [IsFollowed, renameSeries, h.namedSeries?_list, h.namedSeries?_list, leafName?_renameItems]
    cases leafName? items <;> rfl

/-- What a formula refers to is one of its leaves. -/
theorem hasLeaf_of_mem_references {t : Tree} {name : String} (hname : name ∈ t.references registry) :
    t.HasLeaf name := by
  induction t using inductionOn with
  | atom l =>
    rw [references] at hname
    cases hname
  | list items ih =>
    rw [references_list, h.namedSeries?_list] at hname
    cases hleaf : leafName? items with
    | some n =>
      rw [hleaf] at hname
      exact .leaf (List.mem_singleton.1 hname ▸ hleaf)
    | none =>
      rw [hleaf] at hname
      obtain ⟨t, ht, hmem⟩ := mem_referencesOfAll.1 hname
      exact .item hleaf (List.mem_of_mem_tail ht) (ih t (List.mem_of_mem_tail ht) hmem)

end NamesByLeaves

end Registry

end SeriesAlgebra
